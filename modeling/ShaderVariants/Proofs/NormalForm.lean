import ShaderVariants.Proofs.Recovery
import ShaderVariants.Proofs.RoundTrip

/-! # Every text has a normal form

Reading passes over mistakes and merges what is said about a choice in several places, so a schedule
has many texts. Writing what was read gives one of them, and reading that changes nothing any more
(`read_text_read`). Whatever the text was, a name in the schedule comes from tokens that were
scanned as words, and a choice comes from an entry that selects something. Such a schedule can be
written down whole (`Normal`), so nothing of it gets lost. -/
namespace ShaderVariants
open Text

def Selection.Spelled (s : Selection) : Prop :=
  isWord s.world.toList = true ∧ ∀ a ∈ s.alternate, isWord a.toList = true

namespace Schedule

/-- The names of the entry can be written, and if it is a choice it selects something. -/
def Entry.Spelled : Entry → Prop
  | .choice name selections =>
    isChoiceName name = true ∧ selections ≠ [] ∧ ∀ s ∈ selections, s.Spelled
  | .attrib name attributes =>
    isChoiceName name = true ∧ ∀ a ∈ attributes, isWord a.1.toList = true

/-- All that the schedule says can be written. -/
def Normal (s : Schedule) : Prop := ∀ entry ∈ s.entries, entry.Spelled

/-! ## Names are scanned as words -/

/-- Tokens of which the names are words. -/
def Worded (ts : List Token) : Prop := ∀ t ∈ ts, t.isName = true → isWord t.lexeme.toList = true

theorem isWord_cut {c : Char} {cs : List Char}
    (h : (cut c cs).1 = .identifier ∨ (cut c cs).1 = .attrib) : isWord (cut c cs).2.1 = true := by
  unfold cut at *
  split
  · -- literals and marks are of other kinds
    rw [if_pos ‹_›] at h
    dsimp only at h
    split at h <;> simp at h
  · rw [if_neg ‹_›] at h
    split
    · rename_i hstart
      simp [isWord, hstart]
    · rw [if_neg ‹_›] at h
      unfold punctuation at h
      dsimp only at h
      split_ifs at h <;> simp at h

theorem isWord_scan {cursor : Cursor} (h : (scan cursor).1.isName = true) :
    isWord (scan cursor).1.lexeme.toList = true := by
  have hkind := isName_kind h
  cases hskip : skip .plain cursor.position cursor.rest with
  | openComment opener finish => simp [scan, hskip] at hkind
  | upTo next =>
    obtain ⟨p, rest⟩ := next
    cases rest with
    | nil => simp [scan, hskip, Token.ofText] at hkind
    | cons c cs =>
      simp only [scan, hskip, Token.ofText] at hkind ⊢
      have hword := isWord_cut hkind
      rcases hkind with hkind | hkind <;> simpa [hkind] using hword

theorem worded_tokenize (cursor : Cursor) : Worded (tokenize cursor).1 := by
  fun_induction tokenize cursor with
  | case1 cursor hfinish => exact List.forall_mem_nil _
  | case2 cursor hfinish tokens finish htail ih =>
    rw [htail] at ih
    exact List.forall_mem_cons.mpr ⟨isWord_scan, ih⟩

/-! ## So entries of the grammar can be written -/

theorem Worded.left {ts us : List Token} (h : Worded (ts ++ us)) : Worded ts :=
  (List.forall_mem_append.mp h).1

theorem Worded.right {ts us : List Token} (h : Worded (ts ++ us)) : Worded us :=
  (List.forall_mem_append.mp h).2

theorem Worded.head {t : Token} {ts : List Token} (h : Worded (t :: ts)) (ht : t.isName = true) :
    isWord t.lexeme.toList = true :=
  h t List.mem_cons_self ht

theorem Worded.tail {t : Token} {ts : List Token} (h : Worded (t :: ts)) : Worded ts :=
  (List.forall_mem_cons.mp h).2

/-- What holds of each item holds of all. -/
theorem Separated.forall_of_worded {α : Type} {separator : Token.Kind}
    {Item : List Token → α → Prop} {P : α → Prop} {ts : List Token} {as : List α}
    (h : Separated separator Item ts as) (hts : Worded ts)
    (hitem : ∀ {ts a}, Item ts a → Worded ts → P a) : ∀ a ∈ as, P a := by
  induction h with
  | nil => exact List.forall_mem_nil _
  | cons _ ha _ ih =>
    exact List.forall_mem_cons.mpr ⟨hitem ha hts.tail.left, ih hts.tail.right⟩

theorem isChoiceName_intercalate {words : List String} (hne : words ≠ [])
    (h : ∀ w ∈ words, isWord w.toList = true) : isChoiceName (".".intercalate words) = true := by
  -- words hold no dots, so cutting at the dots finds them again
  have hsplit : (['.'].intercalate (words.map String.toList)).splitOn '.' =
      words.map String.toList := by
    refine List.splitOn_intercalate '.' ?_ (by simpa using hne)
    intro w hw
    obtain ⟨word, hword, rfl⟩ := List.mem_map.mp hw
    exact not_mem_of_isWord (h word hword) (by decide)
  have htext : (".".intercalate words).toList = ['.'].intercalate (words.map String.toList) :=
    String.toList_intercalate
  rw [isChoiceName, htext, hsplit, List.all_map]
  exact List.all_eq_true.mpr h

theorem IsName.isWord {ts : List Token} {name : String} (h : IsName ts name) (hts : Worded ts) :
    isWord name.toList = true := by
  cases h with
  | name ht => exact hts.head ht

theorem IsChoice.isChoiceName {ts : List Token} {name : String} (h : IsChoice ts name)
    (hts : Worded ts) : isChoiceName name = true := by
  cases h with
  | segments ht hus =>
    refine isChoiceName_intercalate (List.cons_ne_nil _ _) ?_
    exact List.forall_mem_cons.mpr ⟨hts.head ht, hus.forall_of_worded hts.tail IsName.isWord⟩

theorem IsSelection.spelled {ts : List Token} {s : Selection} (h : IsSelection ts s)
    (hts : Worded ts) : s.Spelled := by
  cases h with
  | world hw =>
    refine ⟨hts.head hw, fun a ha => ?_⟩
    cases ha
  | alternate hw _ ha =>
    refine ⟨hts.head hw, fun a hmem => ?_⟩
    cases hmem
    exact hts.tail.tail.head ha

theorem IsAttribute.isWord_key {ts : List Token} {a : String × String} (h : IsAttribute ts a)
    (hts : Worded ts) : isWord a.1.toList = true := by
  cases h with
  | pair hk _ _ => exact hts.head hk

theorem IsAttributes.isWord_keys {ts : List Token} {as : List (String × String)}
    (h : IsAttributes ts as) (hts : Worded ts) : ∀ a ∈ as, isWord a.1.toList = true := by
  cases h with
  | none => exact List.forall_mem_nil _
  | some ha hus =>
    exact List.forall_mem_cons.mpr
      ⟨ha.isWord_key hts.left, hus.forall_of_worded hts.right IsAttribute.isWord_key⟩

theorem IsEntry.spelled {ts : List Token} {entry : Entry} (h : IsEntry ts entry)
    (hts : Worded ts) : entry.Spelled := by
  cases h with
  | choice hname _ hs hothers _ =>
    have hrest := hts.right.tail
    refine ⟨hname.isChoiceName hts.left, List.cons_ne_nil _ _, ?_⟩
    exact List.forall_mem_cons.mpr
      ⟨hs.spelled hrest.left, hothers.forall_of_worded hrest.right.left IsSelection.spelled⟩
  | attrib _ hname _ has _ _ =>
    have hrest := hts.tail
    exact ⟨hname.isChoiceName hrest.left, has.isWord_keys hrest.right.tail.left⟩

/-- Whatever the text, the entries that count can be written. -/
theorem spelled_of_complete {source : String} {entry : Entry}
    (h : entry ∈ (readEntries (tokenize (.ofText source)).1).filterMap Except.toOption) :
    entry.Spelled := by
  have hworded := worded_tokenize (.ofText source)
  obtain ⟨⟨tail, hcut, _⟩, _⟩ := segments_cut (tokenize (.ofText source)).1
  rw [complete_eq] at h
  obtain ⟨segment, hsegment, hmeaning⟩ := List.mem_filterMap.mp h
  refine (segmentMeaning?_eq_some_iff.mp hmeaning).spelled fun t ht => ?_
  rw [hcut] at hworded
  exact hworded.left t (List.mem_flatten.mpr ⟨segment, hsegment, ht⟩)

/-! ## And so can what they add up to -/

theorem normal_iff {s : Schedule} : s.Normal ↔
    (∀ e ∈ s.choices.entries, (Entry.choice e.1 e.2).Spelled) ∧
      ∀ e ∈ s.attributes.entries, (Entry.attrib e.1 e.2.entries).Spelled := by
  rw [Normal, entries, List.forall_mem_append, List.forall_mem_map, List.forall_mem_map]

theorem Normal.select {s : Schedule} (h : s.Normal) {name : String} {selections : List Selection}
    (hentry : (Entry.choice name selections).Spelled) : (s.select name selections).Normal := by
  obtain ⟨hchoices, hattributes⟩ := normal_iff.mp h
  obtain ⟨hname, hne, hselections⟩ := hentry
  refine normal_iff.mpr ⟨fun e he => ?_, hattributes⟩
  rcases OrderedMap.mem_entries_insert he with rfl | he
  · refine ⟨hname, by simp [hne], List.forall_mem_append.mpr ⟨?_, hselections⟩⟩
    cases hold : s.choices.find? name with
    | none => exact List.forall_mem_nil _
    | some old => exact (hchoices _ (OrderedMap.find?_eq_some_iff.mp hold)).2.2
  · exact hchoices e he

theorem Normal.setAttributes {s : Schedule} (h : s.Normal) {name : String}
    {attributes : List (String × String)} (hentry : (Entry.attrib name attributes).Spelled) :
    (s.setAttributes name attributes).Normal := by
  obtain ⟨hchoices, hattributes⟩ := normal_iff.mp h
  obtain ⟨hname, hkeys⟩ := hentry
  refine normal_iff.mpr ⟨hchoices, fun e he => ?_⟩
  rcases OrderedMap.mem_entries_insert he with rfl | he
  · refine ⟨hname, fun a ha => ?_⟩
    have hkey := List.mem_map_of_mem (f := Prod.fst) ha
    rcases OrderedMap.mem_keys_insertAll.mp hkey with hold | hnew
    · cases hfind : s.attributes.find? name with
      | none =>
        rw [hfind] at hold
        cases hold
      | some old =>
        rw [hfind] at hold
        obtain ⟨b, hb, hba⟩ := List.mem_map.mp hold
        exact hba ▸ (hattributes _ (OrderedMap.find?_eq_some_iff.mp hfind)).2 b hb
    · obtain ⟨b, hb, hba⟩ := List.mem_map.mp hnew
      exact hba ▸ hkeys b hb
  · exact hattributes e he

theorem Normal.add {s : Schedule} (h : s.Normal) {entry : Entry} (hentry : entry.Spelled) :
    (s.add entry).Normal := by
  cases entry with
  | choice name selections => exact h.select hentry
  | attrib name attributes => exact h.setAttributes hentry

theorem normal_read (source : String) : (read source).1.Normal := by
  have hempty : Normal {} := List.forall_mem_nil _
  exact List.foldlRecOn _ _ hempty fun _ hs _ hentry => hs.add (spelled_of_complete hentry)

/-! ## Writing loses nothing -/

theorem Normal.writable {s : Schedule} (h : s.Normal) : s.Writable := by
  obtain ⟨hchoices, hattributes⟩ := normal_iff.mp h
  exact {
    choices := fun e he => (hchoices e he).1
    worlds := fun e he x hx => ((hchoices e he).2.2 x hx).1
    alternates := fun e he x hx => ((hchoices e he).2.2 x hx).2
    attributes := fun e he => (hattributes e he).1
    keys := fun e he => (hattributes e he).2 }

theorem Normal.selecting_eq {s : Schedule} (h : s.Normal) : s.selecting = s := by
  have hchoices : s.choices.filter (fun _ selections => !selections.isEmpty) = s.choices := by
    refine OrderedMap.ext (List.filter_eq_self.mpr fun e he => ?_)
    simpa using ((normal_iff.mp h).1 e he).2.1
  rw [selecting, hchoices]

theorem choiceText_bare (name : String) (selections : List Selection) :
    choiceText name (selections.map Selection.bare) = choiceText name selections := by
  rw [choiceText, choiceText, List.isEmpty_map, List.map_map]
  rfl

/-- Spans are not written. -/
theorem text_bare (s : Schedule) : s.bare.text = s.text := by
  rw [text, text, bare, OrderedMap.map, List.map_map]
  simp only [Function.comp_def, choiceText_bare]

/-- Whatever the text, what is read from it can be written, reads back without errors as the same
schedule in the same order, and is then written the same way again. -/
theorem read_text_read (source : String) :
    (read (read source).1.text).2 = [] ∧
      (read (read source).1.text).1.bare = (read source).1.bare ∧
      (read (read source).1.text).1.text = (read source).1.text := by
  have hnormal := normal_read source
  obtain ⟨herrors, hread⟩ := read_of_writes (writes_text hnormal.writable)
  rw [← bare_entries, foldl_add_entries, hnormal.selecting_eq] at hread
  refine ⟨herrors, hread, ?_⟩
  rw [← text_bare, hread, text_bare]

end Schedule

end ShaderVariants
