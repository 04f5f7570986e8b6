import ShaderVariants.Schedule.Text

/-! # The grammar of entries

The productions of schedule text as relations between tokens and what they stand for, in the terms
of the comment on `Entry.read` and not of the readers. A reader that is given the tokens of a
production returns what they stand for and leaves the rest, as long as the rest does not go on with
the same production (`NotNext`). In the end that needs no condition, since a semicolon closes every
entry (`Entry.read_of_isEntry`). -/
namespace ShaderVariants.Schedule

inductive IsName : List Token → String → Prop
  | name {t : Token} : t.isName = true → IsName [t] t.lexeme

/-- Items behind separators, `(separator item)*`. -/
inductive Separated {α : Type} (separator : Token.Kind) (Item : List Token → α → Prop) :
    List Token → List α → Prop
  | nil : Separated separator Item [] []
  | cons {t ts us a as} : t.kind = separator → Item ts a → Separated separator Item us as →
      Separated separator Item (t :: (ts ++ us)) (a :: as)

inductive IsChoice : List Token → String → Prop
  | segments {t us others} : t.isName = true → Separated .dot IsName us others →
      IsChoice (t :: us) (".".intercalate (t.lexeme :: others))

inductive IsSelection : List Token → Selection → Prop
  | world {w : Token} : w.isName = true → IsSelection [w] ⟨w.lexeme, none, w.span⟩
  | alternate {w c a : Token} : w.isName = true → c.kind = .colon → a.isName = true →
      IsSelection [w, c, a] ⟨w.lexeme, some a.lexeme, w.span.extendTo a.span⟩

inductive IsAttribute : List Token → String × String → Prop
  | pair {k e v : Token} : k.isName = true → e.kind = .equal → v.kind = .string →
      IsAttribute [k, e, v] (k.lexeme, Text.literalValue v.lexeme)

inductive IsAttributes : List Token → List (String × String) → Prop
  | none : IsAttributes [] []
  | some {ts us a as} : IsAttribute ts a → Separated .comma IsAttribute us as →
      IsAttributes (ts ++ us) (a :: as)

inductive IsEntry : List Token → Entry → Prop
  | choice {ts e ss s us others z name} : IsChoice ts name → e.kind = .equal →
      IsSelection ss s → Separated .comma IsSelection us others → z.kind = .semicolon →
      IsEntry (ts ++ e :: (ss ++ (us ++ [z]))) (.choice name (s :: others))
  | attrib {k ts l us r z name attributes} : k.kind = .attrib → IsChoice ts name →
      l.kind = .leftParen → IsAttributes us attributes → r.kind = .rightParen →
      z.kind = .semicolon →
      IsEntry (k :: (ts ++ l :: (us ++ [r, z]))) (.attrib name attributes)

/-- The next token, if there is one, is of another kind. -/
def NotNext (kind : Token.Kind) (rest : List Token) : Prop := ∀ t ∈ rest.head?, t.kind ≠ kind

theorem NotNext.cons {kind : Token.Kind} {t : Token} (h : t.kind ≠ kind) (rest : List Token) :
    NotNext kind (t :: rest) := by
  intro u hu
  cases hu
  exact h

/-- A token of one kind is none of another. -/
theorem NotNext.of_kind {kind other : Token.Kind} {t : Token} (h : t.kind = other)
    (hne : other ≠ kind) (rest : List Token) : NotNext kind (t :: rest) :=
  .cons (h ▸ hne) rest

theorem isName_kind {t : Token} (h : t.isName = true) :
    t.kind = .identifier ∨ t.kind = .attrib := by
  simpa [Token.isName] using h

namespace Reader
variable {α β : Type}

theorem bind_ok {r : Reader α} {f : α → Reader β} {tokens rest : List Token} {a : α}
    (h : r tokens = .ok (a, rest)) : (r >>= f) tokens = f a rest := by
  show (r tokens).bind (fun p => f p.1 p.2) = f a rest
  rw [h]
  rfl

theorem token_ok {accept : Token → Bool} {t : Token} (h : accept t = true) (expected : String)
    (rest : List Token) : token accept expected (t :: rest) = .ok (t, rest) :=
  if_pos h

theorem kind_ok {k : Token.Kind} {t : Token} (h : t.kind = k) (expected : String)
    (rest : List Token) : kind k expected (t :: rest) = .ok (t, rest) :=
  token_ok (by simp [h]) expected rest

theorem name_ok {t : Token} (h : t.isName = true) (expected : String) (rest : List Token) :
    name expected (t :: rest) = .ok (t.lexeme, rest) := by
  show ((token Token.isName expected (t :: rest)).bind fun p => .ok (p.1.lexeme, p.2)) = _
  rw [token_ok h]
  rfl

theorem nextIs_of_kind {k : Token.Kind} {t : Token} (h : t.kind = k) (rest : List Token) :
    nextIs k (t :: rest) = .ok (true, t :: rest) := by
  simp [nextIs, h]

theorem nextIs_of_notNext {k : Token.Kind} {rest : List Token} (h : NotNext k rest) :
    nextIs k rest = .ok (false, rest) := by
  cases rest with
  | nil => rfl
  | cons t rest =>
    have : (t.kind == k) = false := beq_eq_false_iff_ne.mpr (h t rfl)
    simp [nextIs, this]

theorem more_stop {separator : Token.Kind} {rest : List Token} (h : NotNext separator rest)
    (item : Reader α) : more separator item rest = .ok ([], rest) := by
  cases rest with
  | nil => rw [more]
  | cons t rest => rw [more, if_neg (h t rfl)]

/-- Items are read one after the other if each is read in front of a separator, and the last in
front of the rest. -/
theorem more_ok {separator : Token.Kind} {item : Reader α} {Item : List Token → α → Prop}
    {Follow : List Token → Prop}
    (hitem : ∀ {ts a rest}, Item ts a → Follow rest → item (ts ++ rest) = .ok (a, rest))
    (hseparator : ∀ t rest, t.kind = separator → Follow (t :: rest))
    {ts rest : List Token} {as : List α} (h : Separated separator Item ts as) (hrest : Follow rest)
    (hstop : NotNext separator rest) : more separator item (ts ++ rest) = .ok (as, rest) := by
  induction h with
  | nil => exact more_stop hstop item
  | @cons t ts us a as ht ha hus ih =>
    have hfollow : Follow (us ++ rest) := by
      cases hus with
      | nil => exact hrest
      | cons hu _ _ => exact hseparator _ _ hu
    rw [List.cons_append, List.append_assoc, more, if_pos ht, hitem ha hfollow]
    have hle : (us ++ rest).length ≤ (ts ++ (us ++ rest)).length := by simp
    simp only [if_pos hle, ih]

end Reader

namespace Entry
open Reader

theorem readChoice_ok {ts rest : List Token} {choice : String} (h : IsChoice ts choice)
    (hrest : NotNext .dot rest) : readChoice (ts ++ rest) = .ok (choice, rest) := by
  cases h with
  | @segments t us others ht hus =>
    have hitem : ∀ {ts a rest}, IsName ts a → True →
        name "identifier after '.'" (ts ++ rest) = .ok (a, rest) := by
      intro ts a rest h _
      cases h with
      | name ht => exact name_ok ht _ rest
    rw [readChoice, List.cons_append, bind_ok (name_ok ht _ _),
      bind_ok (more_ok hitem (fun _ _ _ => trivial) hus trivial hrest)]
    rfl

theorem readSelection_ok {ts rest : List Token} {s : Selection} (h : IsSelection ts s)
    (hrest : NotNext .colon rest) : readSelection (ts ++ rest) = .ok (s, rest) := by
  cases h with
  | @world w hw =>
    rw [readSelection, List.singleton_append, bind_ok (token_ok hw _ _),
      bind_ok (nextIs_of_notNext hrest)]
    rfl
  | @alternate w c a hw hc ha =>
    show readSelection (w :: c :: a :: rest) = _
    rw [readSelection, bind_ok (token_ok hw _ _), bind_ok (nextIs_of_kind hc _), if_pos rfl,
      bind_ok (kind_ok hc _ _), bind_ok (token_ok ha _ _)]
    rfl

theorem readAttribute_ok {ts : List Token} {a : String × String} (h : IsAttribute ts a)
    (rest : List Token) : readAttribute (ts ++ rest) = .ok (a, rest) := by
  cases h with
  | @pair k e v hk he hv =>
    show readAttribute (k :: e :: v :: rest) = _
    rw [readAttribute, bind_ok (name_ok hk _ _), bind_ok (kind_ok he _ _),
      bind_ok (kind_ok hv _ _)]
    rfl

theorem readAttributeList_ok {ts rest : List Token} {r : Token} {as : List (String × String)}
    (h : IsAttributes ts as) (hr : r.kind = .rightParen) :
    readAttributeList (ts ++ r :: rest) = .ok (as, r :: rest) := by
  cases h with
  | none =>
    rw [readAttributeList, List.nil_append, bind_ok (nextIs_of_kind hr _), if_pos rfl]
    rfl
  | @some ts us a as ha hus =>
    have hnext : NotNext .rightParen ((ts ++ us) ++ r :: rest) := by
      cases ha with
      | pair hk _ _ =>
        refine NotNext.cons ?_ _
        rcases isName_kind hk with h | h <;> rw [h] <;> simp
    have hcomma : NotNext .comma (r :: rest) := .of_kind hr (by simp) rest
    have hitem : ∀ {ts a rest}, IsAttribute ts a → True →
        readAttribute (ts ++ rest) = .ok (a, rest) := fun h _ => readAttribute_ok h _
    rw [readAttributeList, bind_ok (nextIs_of_notNext hnext), if_neg Bool.false_ne_true,
      List.append_assoc, bind_ok (readAttribute_ok ha _),
      bind_ok (more_ok hitem (fun _ _ _ => trivial) hus trivial hcomma)]
    rfl

theorem readSelections_ok {ts ss us rest : List Token} {e z : Token} {choice : String}
    {s : Selection} {others : List Selection} (hts : IsChoice ts choice) (he : e.kind = .equal)
    (hss : IsSelection ss s) (hus : Separated .comma IsSelection us others)
    (hz : z.kind = .semicolon) :
    readSelections (ts ++ e :: (ss ++ (us ++ z :: rest))) =
      .ok (.choice choice (s :: others), rest) := by
  have hcolon : NotNext .colon (us ++ z :: rest) := by
    cases hus with
    | nil => exact .of_kind hz (by simp) rest
    | cons ht _ _ => exact .of_kind ht (by simp) _
  rw [readSelections, bind_ok (readChoice_ok hts (.of_kind he (by simp) _)),
    bind_ok (kind_ok he _ _), bind_ok (readSelection_ok hss hcolon),
    bind_ok (more_ok readSelection_ok (fun _ _ ht => .of_kind ht (by simp) _) hus
      (.of_kind hz (by simp) rest) (.of_kind hz (by simp) rest)),
    bind_ok (kind_ok hz _ _)]
  rfl

theorem readAttributes_ok {ts us rest : List Token} {k l r z : Token} {choice : String}
    {attributes : List (String × String)} (hk : k.kind = .attrib) (hts : IsChoice ts choice)
    (hl : l.kind = .leftParen) (hus : IsAttributes us attributes) (hr : r.kind = .rightParen)
    (hz : z.kind = .semicolon) :
    readAttributes (k :: (ts ++ l :: (us ++ r :: z :: rest))) =
      .ok (.attrib choice attributes, rest) := by
  rw [readAttributes, bind_ok (kind_ok hk _ _),
    bind_ok (readChoice_ok hts (.of_kind hl (by simp) _)), bind_ok (kind_ok hl _ _),
    bind_ok (readAttributeList_ok hus hr), bind_ok (kind_ok hr _ _), bind_ok (kind_ok hz _ _)]
  rfl

/-- A choice that is named by the keyword is told apart by what follows the keyword. -/
theorem not_startsAttributes {ts rest : List Token} {e : Token} {choice : String}
    (hts : IsChoice ts choice) (he : e.kind = .equal) :
    startsAttributes (ts ++ e :: rest) = false := by
  cases hts with
  | segments ht hus =>
    cases hus with
    | nil => simp [startsAttributes, he]
    | cons hdot _ _ => simp [startsAttributes, hdot]

theorem startsAttributes_of_choice {ts rest : List Token} {k : Token} {choice : String}
    (hk : k.kind = .attrib) (hts : IsChoice ts choice) :
    startsAttributes (k :: (ts ++ rest)) = true := by
  cases hts with
  | segments ht _ =>
    rcases isName_kind ht with h | h <;> simp [startsAttributes, hk, h]

theorem read_of_isEntry {ts : List Token} {entry : Entry} (h : IsEntry ts entry)
    (rest : List Token) : read (ts ++ rest) = .ok (entry, rest) := by
  cases h with
  | choice hts he hss hus hz =>
    simp only [List.append_assoc, List.cons_append, List.nil_append]
    rw [read, if_neg (by simp [not_startsAttributes hts he])]
    exact readSelections_ok hts he hss hus hz
  | attrib hk hts hl hus hr hz =>
    simp only [List.append_assoc, List.cons_append, List.nil_append]
    rw [read, if_pos (startsAttributes_of_choice hk hts)]
    exact readAttributes_ok hk hts hl hus hr hz

end Entry

/-! ## The tokens of an entry -/

/-- The kinds of tokens that can stand in an entry before its semicolon. -/
def Token.Kind.isInner : Token.Kind → Bool
  | .semicolon | .invalid _ | .finish => false
  | _ => true

theorem isInner_of_isName {t : Token} (h : t.isName = true) : t.kind.isInner = true := by
  rcases isName_kind h with h | h <;> rw [h] <;> rfl

theorem error?_of_isInner {t : Token} (h : t.kind.isInner = true) : t.error? = none := by
  unfold Token.error?
  split
  · rename_i fault hf
    rw [hf] at h
    cases h
  · rfl

/-- Tokens from inside an entry. -/
def Inner (ts : List Token) : Prop := ∀ t ∈ ts, t.kind.isInner = true

theorem Inner.nil : Inner [] := List.forall_mem_nil _

theorem Inner.cons {t : Token} {ts : List Token} (ht : t.kind.isInner = true) (hts : Inner ts) :
    Inner (t :: ts) :=
  List.forall_mem_cons.mpr ⟨ht, hts⟩

theorem Inner.append {ts us : List Token} (hts : Inner ts) (hus : Inner us) : Inner (ts ++ us) :=
  List.forall_mem_append.mpr ⟨hts, hus⟩

theorem Separated.inner {α : Type} {separator : Token.Kind} {Item : List Token → α → Prop}
    {ts : List Token} {as : List α} (h : Separated separator Item ts as)
    (hseparator : separator.isInner = true) (hitem : ∀ {ts a}, Item ts a → Inner ts) :
    Inner ts := by
  induction h with
  | nil => exact .nil
  | cons ht ha _ ih => exact .cons (ht ▸ hseparator) ((hitem ha).append ih)

theorem IsName.inner {ts : List Token} {name : String} (h : IsName ts name) : Inner ts := by
  cases h with
  | name ht => exact .cons (isInner_of_isName ht) .nil

theorem IsChoice.inner {ts : List Token} {name : String} (h : IsChoice ts name) : Inner ts := by
  cases h with
  | segments ht hus => exact .cons (isInner_of_isName ht) (hus.inner rfl IsName.inner)

theorem IsSelection.inner {ts : List Token} {s : Selection} (h : IsSelection ts s) : Inner ts := by
  cases h with
  | world hw => exact .cons (isInner_of_isName hw) .nil
  | alternate hw hc ha =>
    exact .cons (isInner_of_isName hw) (.cons (hc ▸ rfl) (.cons (isInner_of_isName ha) .nil))

theorem IsAttribute.inner {ts : List Token} {a : String × String} (h : IsAttribute ts a) :
    Inner ts := by
  cases h with
  | pair hk he hv =>
    exact .cons (isInner_of_isName hk) (.cons (he ▸ rfl) (.cons (hv ▸ rfl) .nil))

theorem IsAttributes.inner {ts : List Token} {as : List (String × String)}
    (h : IsAttributes ts as) : Inner ts := by
  cases h with
  | none => exact .nil
  | some ha hus => exact ha.inner.append (hus.inner rfl IsAttribute.inner)

/-- The semicolon of an entry is its last token and its only one. -/
theorem IsEntry.ended {ts : List Token} {entry : Entry} (h : IsEntry ts entry) :
    ∃ us z, ts = us ++ [z] ∧ Inner us ∧ z.kind = .semicolon := by
  cases h with
  | @choice ts e ss s us others z name hts he hss hus hz =>
    refine ⟨ts ++ e :: (ss ++ us), z, by simp, ?_, hz⟩
    exact hts.inner.append (.cons (he ▸ rfl) (hss.inner.append (hus.inner rfl IsSelection.inner)))
  | @attrib k ts l us r z name attributes hk hts hl hus hr hz =>
    refine ⟨k :: (ts ++ l :: (us ++ [r])), z, by simp, ?_, hz⟩
    refine .cons (hk ▸ rfl) (hts.inner.append (.cons (hl ▸ rfl) (hus.inner.append ?_)))
    exact .cons (hr ▸ rfl) .nil

/-- No token of an entry accounts for an error. -/
theorem IsEntry.valid {ts : List Token} {entry : Entry} (h : IsEntry ts entry) :
    ∀ t ∈ ts, t.error? = none := by
  obtain ⟨us, z, rfl, hus, hz⟩ := h.ended
  refine List.forall_mem_append.mpr ⟨fun t ht => error?_of_isInner (hus t ht), ?_⟩
  intro t ht
  rw [List.mem_singleton] at ht
  rw [ht, Token.error?, hz]

/-! ## Whole texts -/

/-- Entries one after the other. -/
inductive AreEntries : List Token → List Entry → Prop
  | nil : AreEntries [] []
  | cons {ts us entry entries} : IsEntry ts entry → AreEntries us entries →
      AreEntries (ts ++ us) (entry :: entries)

theorem AreEntries.append {ts us : List Token} {es fs : List Entry} (hts : AreEntries ts es)
    (hus : AreEntries us fs) : AreEntries (ts ++ us) (es ++ fs) := by
  induction hts with
  | nil => exact hus
  | cons he _ ih =>
    rw [List.append_assoc]
    exact .cons he ih

theorem AreEntries.valid {ts : List Token} {entries : List Entry} (h : AreEntries ts entries) :
    ∀ t ∈ ts, t.error? = none := by
  induction h with
  | nil => exact List.forall_mem_nil _
  | cons he _ ih => exact List.forall_mem_append.mpr ⟨he.valid, ih⟩

theorem readEntries_of_areEntries {ts : List Token} {entries : List Entry}
    (h : AreEntries ts entries) : readEntries ts = entries.map .ok := by
  induction h with
  | nil =>
    rw [readEntries]
    rfl
  | @cons ts us entry entries he _ ih =>
    have hread := Entry.read_of_isEntry he us
    have hne : ts ++ us ≠ [] := by
      cases he <;> simp
    obtain ⟨t, rest, ht⟩ := List.exists_cons_of_ne_nil hne
    rw [ht] at hread ⊢
    unfold readEntries
    split
    · rename_i entry' rest' hok
      rw [hread] at hok
      cases hok
      rw [ih]
      rfl
    · rename_i missing herror
      rw [hread] at herror
      cases herror

/-- A text of grammatical entries is read without errors. -/
theorem read_of_areEntries {source : String} {ts : List Token} {finish : Token}
    {entries : List Entry} (htok : tokenize (.ofText source) = (ts, finish))
    (h : AreEntries ts entries) : read source = (entries.foldl add {}, []) := by
  have hcomplete : (entries.map .ok).filterMap (Except.toOption (ε := Missing)) = entries := by
    rw [List.filterMap_map]
    exact List.filterMap_some
  have herrors : ts.filterMap Token.error? = [] := List.filterMap_eq_nil_iff.mpr h.valid
  have hbroken : entries.filterMap (fun _ => (none : Option SyntaxError)) = [] :=
    List.filterMap_eq_nil_iff.mpr fun _ _ => rfl
  simp only [read, htok, readEntries_of_areEntries h, hcomplete, herrors, List.filterMap_map,
    Function.comp_def, hbroken, List.append_nil, List.mergeSort_nil]

end ShaderVariants.Schedule
