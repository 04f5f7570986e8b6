import ShaderVariants.Proofs.Grammar
import ShaderVariants.Proofs.Maps
import ShaderVariants.Proofs.Scanning

/-! # Reading what was written

Each part of a written schedule scans as the tokens of its production, so the whole text is a list
of grammatical entries that say what the schedule says (`scans_text`). Adding them up again gives
the schedule back: the keys of its maps are distinct, so every entry is appended. Spans are lost in
writing, and so are choices without selections. -/
namespace ShaderVariants
open Text

/-- Words joined by dots. -/
def Schedule.isChoiceName (name : String) : Bool := (name.toList.splitOn '.').all isWord

/-- Everything but the attribute values can be spelled. -/
structure Schedule.Writable (s : Schedule) : Prop where
  choices : ∀ e ∈ s.choices.entries, Schedule.isChoiceName e.1 = true
  worlds : ∀ e ∈ s.choices.entries, ∀ x ∈ e.2, isWord x.world.toList = true
  alternates : ∀ e ∈ s.choices.entries, ∀ x ∈ e.2, ∀ a ∈ x.alternate, isWord a.toList = true
  attributes : ∀ e ∈ s.attributes.entries, Schedule.isChoiceName e.1 = true
  keys : ∀ e ∈ s.attributes.entries, ∀ a ∈ e.2.entries, isWord a.1.toList = true

/-! ## Forgetting spans -/

def Selection.bare (s : Selection) : Selection := { s with span := {} }

namespace Schedule

def Entry.bare : Entry → Entry
  | .choice name selections => .choice name (selections.map Selection.bare)
  | .attrib name attributes => .attrib name attributes

def bare (s : Schedule) : Schedule := { s with choices := s.choices.map (·.map Selection.bare) }

/-- The schedule without the choices that select nothing. -/
def selecting (s : Schedule) : Schedule :=
  { s with choices := s.choices.filter fun _ selections => !selections.isEmpty }

/-- What a schedule says, entry by entry. -/
def entries (s : Schedule) : List Entry :=
  s.choices.entries.map (fun e => .choice e.1 e.2) ++
    s.attributes.entries.map fun e => .attrib e.1 e.2.entries

theorem bare_add (s : Schedule) (entry : Entry) : (s.add entry).bare = s.bare.add entry.bare := by
  cases entry with
  | choice name selections =>
    have h : ∀ v : List Selection, (v ++ selections).map Selection.bare =
        v.map Selection.bare ++ selections.map Selection.bare := fun v => List.map_append
    exact congrArg (Schedule.mk · s.attributes) (OrderedMap.map_update h s.choices name [])
  | attrib name attributes => rfl

theorem bare_foldl_add (es : List Entry) (s : Schedule) :
    (es.foldl add s).bare = (es.map Entry.bare).foldl add s.bare := by
  induction es generalizing s with
  | nil => rfl
  | cons e es ih => rw [List.foldl_cons, ih, bare_add, List.map_cons, List.foldl_cons]

theorem bare_entries (s : Schedule) : s.bare.entries = s.entries.map Entry.bare := by
  rw [entries, entries, List.map_append, List.map_map, List.map_map]
  exact congrArg (· ++ _) List.map_map

/-- The choices of a schedule and its attributes do not get in each other's way. -/
theorem foldl_add_entries (s : Schedule) : s.entries.foldl add {} = s := by
  have hchoices : ∀ (l : List (String × List Selection)) (t : Schedule),
      l.foldl (fun t e => t.add (.choice e.1 e.2)) t =
        { t with choices := l.foldl (fun m e => m.update e.1 [] (· ++ e.2)) t.choices } := by
    intro l
    induction l with
    | nil => intro t; rfl
    | cons e l ih => intro t; exact ih _
  have hattributes : ∀ (l : List (String × Attributes)) (t : Schedule),
      l.foldl (fun t e => t.add (.attrib e.1 e.2.entries)) t =
        { t with attributes :=
            l.foldl (fun m e => m.update e.1 ∅ (·.insertAll e.2.entries)) t.attributes } := by
    intro l
    induction l with
    | nil => intro t; rfl
    | cons e l ih => intro t; exact ih _
  have hc : s.choices.entries.foldl (fun m e => m.update e.1 [] (· ++ e.2)) ∅ = s.choices :=
    s.choices.foldl_update_entries fun _ _ => rfl
  have ha : s.attributes.entries.foldl (fun m e => m.update e.1 ∅ (·.insertAll e.2.entries)) ∅ =
      s.attributes :=
    s.attributes.foldl_update_entries fun e _ => OrderedMap.ofList_entries e.2
  rw [entries, List.foldl_append, List.foldl_map, List.foldl_map, hattributes, hchoices]
  show Schedule.mk _ _ = s
  rw [hc, ha]

/-! ## The parts of a written schedule -/

theorem intercalate_cons (sep a : List Char) (l : List (List Char)) :
    sep.intercalate (a :: l) = a ++ l.flatMap (sep ++ ·) := by
  induction l generalizing a with
  | nil => simp
  | cons b l ih => rw [List.intercalate_cons_cons, ih, List.flatMap_cons, List.append_assoc,
      List.append_assoc]

theorem scans_name {w : List Char} (h : isWord w = true) :
    Scans w fun ts => IsName ts (String.ofList w) := by
  refine (scans_word h).imp ?_
  intro ts hts
  obtain ⟨t, hkind, hlexeme, rfl⟩ := hts
  rw [← hlexeme]
  refine .name ?_
  unfold Token.isName
  rw [hkind, wordKind]
  split <;> rfl

/-- Items behind marks scan one after the other. -/
theorem scans_separated {α β γ : Type} {c : Char} {separator : Token.Kind}
    (hmark : Mark c separator) {Item : List Token → β → Prop} {f : α → γ} {g : β → γ}
    {text : α → List Char} {l : List α}
    (h : ∀ x ∈ l, Scans (text x) fun ts => ∃ b, g b = f x ∧ Item ts b) :
    Scans (l.flatMap fun x => c :: text x) fun ts =>
      ∃ bs, bs.map g = l.map f ∧ Separated separator Item ts bs := by
  induction l with
  | nil =>
    refine scans_nil.imp ?_
    intro ts hts
    exact ⟨[], rfl, hts ▸ .nil⟩
  | cons x l ih =>
    have hx := h x List.mem_cons_self
    have hl := ih fun y hy => h y (List.mem_cons_of_mem x hy)
    have hapart := Apart.flatMap_right hmark.isWordChar_eq (text x) text l
    refine ((hx.append hl hapart).mark hmark).imp ?_
    intro ts hts
    obtain ⟨t, _, ht, ⟨us, vs, ⟨b, hb, hus⟩, ⟨bs, hbs, hvs⟩, rfl⟩, rfl⟩ := hts
    exact ⟨b :: bs, by rw [List.map_cons, hb, hbs, List.map_cons], .cons ht hus hvs⟩

theorem scans_choiceName {name : String} (h : isChoiceName name = true) :
    Scans name.toList fun ts => IsChoice ts name := by
  have hjoin : ['.'].intercalate (name.toList.splitOn '.') = name.toList :=
    List.intercalate_splitOn '.'
  have hwords : ∀ w ∈ name.toList.splitOn '.', isWord w = true := List.all_eq_true.mp h
  cases hsplit : name.toList.splitOn '.' with
  | nil => exact absurd hsplit (List.splitOn_ne_nil _ _)
  | cons w others =>
    rw [hsplit] at hjoin hwords
    have hname : name = ".".intercalate (String.ofList w :: others.map String.ofList) := by
      apply String.toList_inj.mp
      rw [String.toList_intercalate, ← hjoin]
      simp [Function.comp_def]
    rw [intercalate_cons] at hjoin
    have hfirst := scans_name (hwords w List.mem_cons_self)
    have hrest : Scans (others.flatMap fun v => '.' :: v) fun ts =>
        ∃ names, names.map id = others.map String.ofList ∧ Separated .dot IsName ts names :=
      scans_separated .dot fun v hv =>
        (scans_name (hwords v (List.mem_cons_of_mem w hv))).imp fun ts hts => ⟨_, rfl, hts⟩
    rw [← hjoin]
    refine (hfirst.append hrest (.flatMap_right (by decide) w _ others)).imp ?_
    intro ts hts
    obtain ⟨us, vs, hus, ⟨names, hnames, hvs⟩, rfl⟩ := hts
    rw [hname, ← hnames, List.map_id]
    generalize String.ofList w = first at hus
    cases hus with
    | name ht => exact .segments ht hvs

theorem scans_selection {s : Selection} (hw : isWord s.world.toList = true)
    (ha : ∀ a ∈ s.alternate, isWord a.toList = true) :
    Scans s.text.toList fun ts => ∃ t, Selection.bare t = s.bare ∧ IsSelection ts t := by
  obtain ⟨world, alternate, span⟩ := s
  have hworld := scans_name hw
  rw [String.ofList_toList] at hworld
  cases alternate with
  | none =>
    refine hworld.imp ?_
    intro ts hts
    cases hts with
    | name ht =>
      refine ⟨_, ?_, .world ht⟩
      rfl
  | some a =>
    have halternate := scans_name (ha a rfl)
    rw [String.ofList_toList] at halternate
    have htext : (Selection.text ⟨world, some a, span⟩).toList =
        world.toList ++ ':' :: a.toList := by
      simp [Selection.text]
    rw [htext]
    refine (hworld.append (halternate.mark .colon) (.cons_right (by decide) _ _)).imp ?_
    intro ts hts
    obtain ⟨us, _, hus, ⟨c, vs, hc, hvs, rfl⟩, rfl⟩ := hts
    cases hus with
    | name hname =>
      cases hvs with
      | name halt =>
        refine ⟨_, ?_, .alternate hname hc halt⟩
        rfl

theorem literalValue_quoted (value : String) :
    literalValue (String.ofList ('"' :: (escape value.toList ++ ['"']))) = value := by
  have h : unquote ('"' :: (escape value.toList ++ ['"'])) = escape value.toList := by
    simp [unquote]
  rw [literalValue, String.toList_ofList, h, unescape_escape, String.ofList_toList]

theorem scans_attribute {key : String} (h : isWord key.toList = true) (value : String) :
    Scans (attributeText key value).toList fun ts => IsAttribute ts (key, value) := by
  have hkey := scans_name h
  rw [String.ofList_toList] at hkey
  have htext : (attributeText key value).toList =
      key.toList ++ ' ' :: '=' :: ' ' :: '"' :: (escape value.toList ++ ['"']) := by
    simp [attributeText]
  have hvalue := (scans_quoted value.toList).space.mark .equal
  rw [htext]
  refine (hkey.append (hvalue.space) (.cons_right (by decide) _ _)).imp ?_
  intro ts hts
  obtain ⟨us, _, hus, ⟨e, _, he, ⟨v, hv, hlexeme, rfl⟩, rfl⟩, rfl⟩ := hts
  cases hus with
  | name hk =>
    have hpair := IsAttribute.pair hk he hv
    rw [hlexeme, literalValue_quoted] at hpair
    exact hpair

/-! ## Whole texts -/

/-- A text that ends its last line and scans as the given entries. -/
def Writes (text : List Char) (entries : List Entry) : Prop :=
  (∀ rest, Apart text rest) ∧ Scans text fun ts =>
    ∃ es : List Entry, es.map Entry.bare = entries.map Entry.bare ∧ AreEntries ts es

theorem Writes.nil : Writes [] [] := by
  refine And.intro (fun rest a ha => ?_) (scans_nil.imp ?_)
  · cases ha
  · intro ts hts
    exact ⟨[], rfl, hts ▸ .nil⟩

theorem Writes.append {a b : List Char} {es fs : List Entry} (ha : Writes a es)
    (hb : Writes b fs) : Writes (a ++ b) (es ++ fs) := by
  refine ⟨fun rest => ?_, (ha.2.append hb.2 (ha.1 b)).imp ?_⟩
  · cases hl : b.getLast? with
    | none =>
      rw [List.getLast?_eq_none_iff.mp hl, List.append_nil]
      exact ha.1 rest
    | some z =>
      intro x hx
      rw [List.getLast?_append, hl] at hx
      exact hb.1 rest x (hl ▸ hx)
  · intro ts hts
    obtain ⟨us, vs, ⟨xs, hxs, hus⟩, ⟨ys, hys, hvs⟩, rfl⟩ := hts
    exact ⟨xs ++ ys, by rw [List.map_append, hxs, hys, List.map_append], hus.append hvs⟩

theorem Writes.flatMap {α : Type} {text : α → List Char} {entries : α → List Entry} {l : List α}
    (h : ∀ x ∈ l, Writes (text x) (entries x)) : Writes (l.flatMap text) (l.flatMap entries) := by
  induction l with
  | nil => exact .nil
  | cons x l ih =>
    exact (h x List.mem_cons_self).append (ih fun y hy => h y (List.mem_cons_of_mem x hy))

theorem scans_ending :
    Scans [';', '\n'] fun ts => ∃ z : Token, z.kind = .semicolon ∧ ts = [z] := by
  refine ((scans_nil.blank isBlank_newline).mark .semicolon).imp ?_
  intro ts hts
  obtain ⟨z, us, hz, rfl, rfl⟩ := hts
  exact ⟨z, hz, rfl⟩

theorem Writes.entry {text : List Char} {entry : Entry}
    (h : Scans (text ++ [';', '\n']) fun ts => ∃ e, Entry.bare e = entry.bare ∧ IsEntry ts e) :
    Writes (text ++ [';', '\n']) [entry] := by
  refine And.intro (fun rest a ha b _ hw => ?_) (h.imp ?_)
  · obtain rfl : '\n' = a := by simpa using ha
    exact absurd hw (by decide)
  · intro ts hts
    obtain ⟨e, he, hentry⟩ := hts
    refine ⟨[e], congrArg ([·]) he, ?_⟩
    rw [← List.append_nil ts]
    exact .cons hentry .nil

theorem writes_choice {name : String} {selections : List Selection}
    (hname : isChoiceName name = true)
    (hworlds : ∀ x ∈ selections, isWord x.world.toList = true)
    (halternates : ∀ x ∈ selections, ∀ a ∈ x.alternate, isWord a.toList = true) :
    Writes (choiceText name selections).toList
      (if selections.isEmpty then [] else [.choice name selections]) := by
  cases selections with
  | nil => exact .nil
  | cons x xs =>
    have hitem : ∀ y ∈ x :: xs, Scans y.text.toList fun ts =>
        ∃ t, Selection.bare t = y.bare ∧ IsSelection ts t :=
      fun y hy => scans_selection (hworlds y hy) (halternates y hy)
    have hothers : Scans (xs.flatMap fun y => ',' :: ' ' :: y.text.toList) fun ts =>
        ∃ ys, ys.map Selection.bare = xs.map Selection.bare ∧
          Separated .comma IsSelection ts ys :=
      scans_separated .comma fun y hy => (hitem y (List.mem_cons_of_mem x hy)).space
    have htext : (choiceText name (x :: xs)).toList = (name.toList ++ ' ' :: '=' :: ' ' ::
        (x.text.toList ++ xs.flatMap fun y => ',' :: ' ' :: y.text.toList)) ++ [';', '\n'] := by
      simp [choiceText, String.toList_intercalate, intercalate_cons, List.flatMap_map]
    have hselections := (hitem x List.mem_cons_self).append hothers
      (.flatMap_right (by decide) _ _ xs)
    have hended := hselections.append scans_ending (.cons_right (by decide) _ _)
    have hall := (scans_choiceName hname).append (hended.space.mark .equal).space
      (.cons_right (by decide) _ _)
    rw [htext]
    refine Writes.entry ?_
    rw [List.append_assoc, List.cons_append, List.cons_append, List.cons_append]
    refine hall.imp ?_
    intro ts hts
    obtain ⟨us, _, hus, ⟨e, _, he, ⟨_, _, ⟨ss, vs, ⟨s, hs, hss⟩, ⟨ys, hys, hvs⟩, rfl⟩, ⟨z, hz, rfl⟩,
      rfl⟩, rfl⟩, rfl⟩ := hts
    rw [List.append_assoc]
    refine ⟨_, ?_, .choice hus he hss hvs hz⟩
    rw [Entry.bare, Entry.bare, List.map_cons, List.map_cons, hs, hys]

theorem scans_attributes {l : List (String × String)}
    (h : ∀ a ∈ l, isWord a.1.toList = true) :
    Scans (", ".intercalate (l.map fun a => attributeText a.1 a.2)).toList fun ts =>
      IsAttributes ts l := by
  cases l with
  | nil =>
    refine scans_nil.imp ?_
    intro ts hts
    exact hts ▸ .none
  | cons x xs =>
    have hitem : ∀ y ∈ x :: xs, Scans (attributeText y.1 y.2).toList fun ts => IsAttribute ts y :=
      fun y hy => scans_attribute (h y hy) y.2
    have hothers : Scans (xs.flatMap fun y => ',' :: ' ' :: (attributeText y.1 y.2).toList)
        fun ts => ∃ ys, ys.map id = xs.map id ∧ Separated .comma IsAttribute ts ys :=
      scans_separated .comma fun y hy =>
        (hitem y (List.mem_cons_of_mem x hy)).space.imp fun ts hts => ⟨y, rfl, hts⟩
    have htext : (", ".intercalate ((x :: xs).map fun a => attributeText a.1 a.2)).toList =
        (attributeText x.1 x.2).toList ++
          xs.flatMap fun y => ',' :: ' ' :: (attributeText y.1 y.2).toList := by
      simp [String.toList_intercalate, intercalate_cons, List.flatMap_map]
    rw [htext]
    refine ((hitem x List.mem_cons_self).append hothers (.flatMap_right (by decide) _ _ xs)).imp ?_
    intro ts hts
    obtain ⟨us, vs, hus, ⟨ys, hys, hvs⟩, rfl⟩ := hts
    rw [List.map_id, List.map_id] at hys
    exact .some hus (hys ▸ hvs)

theorem writes_attributes {name : String} {attributes : Attributes}
    (hname : isChoiceName name = true)
    (hkeys : ∀ a ∈ attributes.entries, isWord a.1.toList = true) :
    Writes (attributesText name attributes).toList [.attrib name attributes.entries] := by
  have hkeyword : Scans "attrib".toList fun ts => ∃ t : Token, t.kind = .attrib ∧ ts = [t] := by
    refine (scans_word (by decide)).imp ?_
    intro ts hts
    obtain ⟨t, ht, _, rfl⟩ := hts
    exact ⟨t, ht, rfl⟩
  have htext : (attributesText name attributes).toList = ("attrib".toList ++ ' ' ::
      (name.toList ++ '(' :: ((", ".intercalate (attributes.entries.map fun a =>
        attributeText a.1 a.2)).toList ++ [')']))) ++ [';', '\n'] := by
    simp [attributesText]
  have hlist := (scans_attributes hkeys).append (scans_ending.mark .rightParen)
    (.cons_right (by decide) _ _)
  have hname' := (scans_choiceName hname).append (hlist.mark .leftParen)
    (.cons_right (by decide) _ _)
  have hall := hkeyword.append hname'.space (.cons_right (by decide) _ _)
  rw [htext]
  refine Writes.entry ?_
  rw [List.append_assoc, List.cons_append, List.append_assoc, List.cons_append, List.append_assoc,
    List.singleton_append]
  refine hall.imp ?_
  intro ts hts
  obtain ⟨_, _, ⟨k, hk, rfl⟩, ⟨us, _, hus, ⟨l, _, hl, ⟨vs, _, hvs, ⟨r, _, hr, ⟨z, hz, rfl⟩, rfl⟩,
    rfl⟩, rfl⟩, rfl⟩, rfl⟩ := hts
  exact ⟨_, rfl, .attrib hk hus hl hvs hr hz⟩

theorem writes_text {s : Schedule} (h : s.Writable) : Writes s.text.toList s.selecting.entries := by
  have hchoices : s.choices.entries.flatMap
      (fun e => if e.2.isEmpty then [] else [Entry.choice e.1 e.2]) =
        s.selecting.choices.entries.map fun e => .choice e.1 e.2 := by
    show _ = (s.choices.entries.filter fun e => !e.2.isEmpty).map _
    induction s.choices.entries with
    | nil => rfl
    | cons e l ih =>
      rw [List.flatMap_cons, ih, List.filter_cons]
      cases e.2.isEmpty <;> rfl
  have htext : s.text.toList =
      (s.choices.entries.flatMap fun e => (choiceText e.1 e.2).toList) ++
        s.attributes.entries.flatMap fun e => (attributesText e.1 e.2).toList := by
    simp [text, String.toList_join, List.flatMap_map]
  have hwritten := (Writes.flatMap fun e he =>
      writes_choice (h.choices e he) (h.worlds e he) (h.alternates e he)).append
    (Writes.flatMap fun e he => writes_attributes (h.attributes e he) (h.keys e he))
  rw [hchoices, ← List.map_eq_flatMap] at hwritten
  rw [htext]
  exact hwritten

theorem read_of_writes {source : String} {es : List Entry} (h : Writes source.toList es) :
    (read source).2 = [] ∧ (read source).1.bare = (es.map Entry.bare).foldl add {} := by
  obtain ⟨p, ts, ⟨fs, hfs, hts⟩, htok⟩ := h.2 _ [] (h.1 [])
  have hempty : (tokenize ⟨p, []⟩).1 = [] := by
    rw [tokenize]
    rfl
  rw [List.append_nil, hempty, List.append_nil] at htok
  rw [read_of_areEntries htok hts, ← hfs]
  exact ⟨rfl, bare_foldl_add fs {}⟩

/-- The text of a schedule reads back, without errors, as the schedule it was written from. Spans
are not written, and neither are choices that select nothing. -/
theorem read_text {s : Schedule} (h : s.Writable) :
    (read s.text).2 = [] ∧ (read s.text).1.bare = s.selecting.bare := by
  have hread := read_of_writes (writes_text h)
  rw [← bare_entries, foldl_add_entries] at hread
  exact hread

/-- The keyword in every place of a name, a choice without selections, and values that spell marks,
comments and escapes. -/
def keywordSchedule : Schedule where
  choices := .ofList [("attrib", [{ world := "attrib", alternate := some "attrib" }]), ("idle", []),
    ("_a.attrib.B9", [{ world := "vs" }, { world := "attrib" }, { world := "vs" }])]
  attributes := .ofList [("attrib", .ofList [("attrib", "\"a\\\" // \n\t\r */ é"), ("k", "")]),
    ("attrib.m", ∅)]

theorem read_text_keywordSchedule : keywordSchedule.Writable ∧
    (read keywordSchedule.text).2 = [] ∧
      (read keywordSchedule.text).1.bare = keywordSchedule.selecting.bare := by
  have h : keywordSchedule.Writable :=
    ⟨by decide, by decide, by decide, by decide, by decide⟩
  exact ⟨h, read_text h⟩

end Schedule
end ShaderVariants
