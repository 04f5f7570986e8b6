import Mathlib.Data.List.Induction
import Mathlib.Data.List.TakeWhile
import ShaderVariants.Proofs.Maps
import ShaderVariants.Proofs.Stopping

/-! # Reading segment by segment

A semicolon ends every entry and stands nowhere inside of one. A reader therefore takes whole
productions only, and where it fails it has not passed the semicolon of its segment (`Derives`), so
that the next semicolon is where the next segment starts. Cut behind its semicolons, a text is read
one segment at a time: a segment counts if it is an entry of the grammar, and for nothing otherwise
(`complete_eq`). What the entries add up to is said in `Merges`, without adding. -/
namespace ShaderVariants.Schedule

/-! ## Readers take productions -/

/-- What the reader takes is a production. Where it fails it has taken tokens from inside an entry
only. -/
def Reader.Derives {α : Type} (r : Reader α) (P : List Token → α → Prop) : Prop := ∀ tokens,
  match r tokens with
  | .ok (a, rest) => ∃ ts, tokens = ts ++ rest ∧ P ts a
  | .error missing => ∃ ts, tokens = ts ++ missing.rest ∧ Inner ts

theorem Entry.derives_read : Reader.Derives Entry.read IsEntry := by
  intro tokens
  cases hc : Entry.read tokens with
  | ok p =>
    have h := Entry.exact_read tokens
    simp only [hc] at h
    obtain ⟨ts, htokens, hts, _⟩ := h
    exact ⟨ts, htokens, hts⟩
  | error missing =>
    obtain ⟨ts, htokens, hstops⟩ := Entry.stops hc
    exact ⟨ts, htokens, hstops.starts.inner hstops.whole⟩

/-! ## Segments -/

/-- No semicolon among the tokens. -/
def Open (ts : List Token) : Prop := ∀ t ∈ ts, t.kind ≠ .semicolon

theorem Inner.open {ts : List Token} (h : Inner ts) : Open ts := by
  intro t ht hz
  have hinner := h t ht
  rw [hz] at hinner
  cases hinner

theorem open_or_ended (ts : List Token) :
    Open ts ∨ ∃ us z rest, ts = us ++ z :: rest ∧ Open us ∧ z.kind = .semicolon := by
  induction ts with
  | nil => exact Or.inl (List.forall_mem_nil _)
  | cons t ts ih =>
    by_cases ht : t.kind = .semicolon
    · exact Or.inr ⟨[], t, ts, rfl, List.forall_mem_nil _, ht⟩
    · rcases ih with hopen | ⟨us, z, rest, rfl, hus, hz⟩
      · exact Or.inl (List.forall_mem_cons.mpr ⟨ht, hopen⟩)
      · exact Or.inr ⟨t :: us, z, rest, rfl, List.forall_mem_cons.mpr ⟨ht, hus⟩, hz⟩

/-- The pieces that a semicolon ends, each with its semicolon. What follows the last semicolon is in
none of them. -/
def segments : List Token → List (List Token)
  | [] => []
  | t :: ts =>
    if t.kind = .semicolon then [t] :: segments ts
    else match segments ts with
      | [] => []
      | s :: rest => (t :: s) :: rest

theorem segments_of_open {ts : List Token} (h : Open ts) : segments ts = [] := by
  induction ts with
  | nil => rfl
  | cons t ts ih =>
    obtain ⟨ht, hts⟩ := List.forall_mem_cons.mp h
    rw [segments, if_neg ht, ih hts]

theorem segments_ended {us : List Token} {z : Token} (hus : Open us) (hz : z.kind = .semicolon)
    (rest : List Token) : segments (us ++ z :: rest) = (us ++ [z]) :: segments rest := by
  induction us with
  | nil => rw [List.nil_append, segments, if_pos hz, List.nil_append]
  | cons t us ih =>
    obtain ⟨ht, hus⟩ := List.forall_mem_cons.mp hus
    rw [List.cons_append, segments, if_neg ht, ih hus, List.cons_append]

/-- The segments are the text up to its last semicolon, and each has its semicolon at the end. -/
theorem segments_cut (tokens : List Token) :
    (∃ tail, tokens = (segments tokens).flatten ++ tail ∧ Open tail) ∧
      ∀ s ∈ segments tokens, ∃ us z, s = us ++ [z] ∧ Open us ∧ z.kind = .semicolon := by
  induction hlen : tokens.length using Nat.strongRecOn generalizing tokens with
  | ind n ih =>
    rcases open_or_ended tokens with hopen | ⟨us, z, rest, rfl, hus, hz⟩
    · rw [segments_of_open hopen]
      exact ⟨⟨tokens, rfl, hopen⟩, List.forall_mem_nil _⟩
    · have hlt : rest.length < n := by
        rw [← hlen, List.length_append, List.length_cons]
        omega
      obtain ⟨⟨tail, hrest, htail⟩, hall⟩ := ih _ hlt rest rfl
      rw [segments_ended hus hz]
      refine ⟨⟨tail, ?_, htail⟩, List.forall_mem_cons.mpr ⟨⟨us, z, rfl, hus, hz⟩, hall⟩⟩
      rw [List.flatten_cons, List.append_assoc, ← hrest, List.append_assoc, List.singleton_append]

theorem skipEntry_of_open {ts : List Token} (h : Open ts) : skipEntry ts = [] := by
  have hall : ∀ t ∈ ts, (t.kind != .semicolon) = true := fun t ht => bne_iff_ne.mpr (h t ht)
  rw [skipEntry, List.dropWhile_eq_nil_iff.mpr hall, List.tail_nil]

theorem skipEntry_ended {us : List Token} {z : Token} (hus : Open us) (hz : z.kind = .semicolon)
    (rest : List Token) : skipEntry (us ++ z :: rest) = rest := by
  have hall : ∀ t ∈ us, (t.kind != .semicolon) = true := fun t ht => bne_iff_ne.mpr (hus t ht)
  rw [skipEntry, List.dropWhile_append_of_pos hall, List.dropWhile_cons_of_neg (by simp [hz]),
    List.tail_cons]

/-- The entry that a segment is by itself. -/
def segmentMeaning? (segment : List Token) : Option Entry :=
  match Entry.read segment with
  | .ok (entry, []) => some entry
  | _ => none

theorem segmentMeaning?_eq_some_iff {segment : List Token} {entry : Entry} :
    segmentMeaning? segment = some entry ↔ IsEntry segment entry := by
  refine ⟨fun h => ?_, fun h => ?_⟩
  · unfold segmentMeaning? at h
    split at h
    · rename_i e hread
      cases h
      have hderives := Entry.derives_read segment
      simp only [hread] at hderives
      obtain ⟨ts, hts, hentry⟩ := hderives
      rw [hts, List.append_nil]
      exact hentry
    · cases h
  · have hread := Entry.read_of_isEntry h []
    rw [List.append_nil] at hread
    rw [segmentMeaning?, hread]

/-- The complete entries of a text are those of its segments, each read by itself. -/
theorem complete_eq (tokens : List Token) : (readEntries tokens).filterMap Except.toOption =
    (segments tokens).filterMap segmentMeaning? := by
  fun_induction readEntries tokens with
  | case1 => rfl
  | case2 t ts entry rest hread ih =>
    have h := Entry.derives_read (t :: ts)
    simp only [hread] at h
    obtain ⟨us, htokens, hentry⟩ := h
    obtain ⟨vs, z, rfl, hvs, hz⟩ := hentry.ended
    rw [htokens, List.append_assoc, List.singleton_append, segments_ended hvs.open hz,
      List.filterMap_cons_some (segmentMeaning?_eq_some_iff.mpr hentry), ← ih]
    rfl
  | case3 t ts missing hread ih =>
    have h := Entry.derives_read (t :: ts)
    simp only [hread] at h
    obtain ⟨us, htokens, hus⟩ := h
    have hskip : (List.filterMap Except.toOption (.error missing ::
        readEntries (skipEntry missing.rest)) : List Entry) =
          (readEntries (skipEntry missing.rest)).filterMap Except.toOption := rfl
    rw [hskip, ih]
    rcases open_or_ended missing.rest with hopen | ⟨vs, z, rest, hrest, hvs, hz⟩
    · have hall : Open (t :: ts) := htokens ▸ List.forall_mem_append.mpr ⟨hus.open, hopen⟩
      rw [skipEntry_of_open hopen, segments_of_open hall]
      rfl
    · -- the whole segment is lost, since reading it again fails at the same token
      have hopen : Open (us ++ vs) := List.forall_mem_append.mpr ⟨hus.open, hvs⟩
      have hsplit : t :: ts = (us ++ vs ++ [z]) ++ rest := by
        rw [htokens, hrest]
        simp
      have hnone : segmentMeaning? (us ++ vs ++ [z]) = none := by
        cases hsome : segmentMeaning? (us ++ vs ++ [z]) with
        | none => rfl
        | some entry =>
          have hok := Entry.read_of_isEntry (segmentMeaning?_eq_some_iff.mp hsome) rest
          rw [← hsplit, hread] at hok
          cases hok
      rw [hrest, skipEntry_ended hvs hz, hsplit, List.append_assoc, List.singleton_append,
        segments_ended hopen hz, List.filterMap_cons_none hnone]

/-! ## What entries add up to -/

namespace Entry

/-- The choice that an entry selects for. -/
def choice? : Entry → Option String
  | .choice name _ => some name
  | .attrib _ _ => none

/-- The choice that an entry gives attributes to. -/
def attributed? : Entry → Option String
  | .choice _ _ => none
  | .attrib name _ => some name

def selectionsFor (name : String) : Entry → List Selection
  | .choice other selections => if other = name then selections else []
  | .attrib _ _ => []

def attributesFor (name : String) : Entry → List (String × String)
  | .choice _ _ => []
  | .attrib other attributes => if other = name then attributes else []

end Entry

/-- A schedule holds what the entries say, in the order in which they first say it. The selections
of a choice stand one behind the other. Of an attribute the last value counts, and a choice has an
attribute map even if no attribute is in it. -/
structure Merges (entries : List Entry) (s : Schedule) : Prop where
  choices : s.choices.keys = (OrderedSet.ofList (entries.filterMap Entry.choice?)).toList
  selections : ∀ name,
    (s.choices.find? name).getD [] = entries.flatMap (Entry.selectionsFor name)
  attributed : s.attributes.keys = (OrderedSet.ofList (entries.filterMap Entry.attributed?)).toList
  attributes : ∀ name,
    (s.attributes.find? name).getD ∅ = .ofList (entries.flatMap (Entry.attributesFor name))

theorem Merges.nil : Merges [] {} := ⟨rfl, fun _ => rfl, rfl, fun _ => rfl⟩

theorem Merges.add {entries : List Entry} {s : Schedule} (h : Merges entries s) (entry : Entry) :
    Merges (entries ++ [entry]) (s.add entry) := by
  cases entry with
  | choice name selections =>
    refine ⟨?_, fun other => ?_, ?_, fun other => ?_⟩
    · show (s.choices.update name [] (· ++ selections)).keys = _
      rw [List.filterMap_append]
      show _ = (OrderedSet.ofList (_ ++ [name])).toList
      rw [OrderedSet.ofList_concat, OrderedSet.toList_insert, OrderedMap.keys_update, h.choices]
    · show ((s.choices.update name [] (· ++ selections)).find? other).getD [] = _
      rw [OrderedMap.find?_update, List.flatMap_append, List.flatMap_singleton,
        Entry.selectionsFor, ← h.selections]
      split
      · rename_i hname
        rw [Option.getD_some, hname]
      · rw [List.append_nil]
    · rw [List.filterMap_append]
      show s.attributes.keys = (OrderedSet.ofList (_ ++ [])).toList
      rw [List.append_nil]
      exact h.attributed
    · rw [List.flatMap_append, List.flatMap_singleton, Entry.attributesFor, List.append_nil]
      exact h.attributes other
  | attrib name attributes =>
    refine ⟨?_, fun other => ?_, ?_, fun other => ?_⟩
    · rw [List.filterMap_append]
      show s.choices.keys = (OrderedSet.ofList (_ ++ [])).toList
      rw [List.append_nil]
      exact h.choices
    · rw [List.flatMap_append, List.flatMap_singleton, Entry.selectionsFor, List.append_nil]
      exact h.selections other
    · show (s.attributes.update name ∅ (·.insertAll attributes)).keys = _
      rw [List.filterMap_append]
      show _ = (OrderedSet.ofList (_ ++ [name])).toList
      rw [OrderedSet.ofList_concat, OrderedSet.toList_insert, OrderedMap.keys_update, h.attributed]
    · show ((s.attributes.update name ∅ (·.insertAll attributes)).find? other).getD ∅ = _
      rw [OrderedMap.find?_update, List.flatMap_append, List.flatMap_singleton,
        Entry.attributesFor, OrderedMap.ofList_append, ← h.attributes]
      split
      · rename_i hname
        rw [Option.getD_some, hname]
      · rfl

theorem merges_foldl_add (entries : List Entry) : Merges entries (entries.foldl add {}) := by
  induction entries using List.reverseRecOn with
  | nil => exact .nil
  | append_singleton entries entry ih =>
    rw [List.foldl_concat]
    exact ih.add entry

/-- Cut the tokens of a text behind each semicolon. Reading the text gives what the pieces add up
to. A piece counts iff it is an entry of the grammar, and then for that entry, whatever stands
before or behind it; the other pieces and the rest behind the last semicolon count for nothing. -/
theorem read_merges_segments (source : String) : ∃ (pieces : List (List Token)) (tail : List Token),
    (tokenize (.ofText source)).1 = pieces.flatten ++ tail ∧ Open tail ∧
    (∀ s ∈ pieces, ∃ us z, s = us ++ [z] ∧ Open us ∧ z.kind = .semicolon) ∧
    ∃ meaning : List Token → Option Entry,
      (∀ segment entry, meaning segment = some entry ↔ IsEntry segment entry) ∧
      Merges (pieces.filterMap meaning) (read source).1 := by
  obtain ⟨⟨tail, hcut, hopen⟩, hpieces⟩ := segments_cut (tokenize (.ofText source)).1
  refine ⟨_, tail, hcut, hopen, hpieces, segmentMeaning?, fun _ _ => segmentMeaning?_eq_some_iff,
    ?_⟩
  rw [← complete_eq]
  exact merges_foldl_add ((readEntries (tokenize (.ofText source)).1).filterMap Except.toOption)

end ShaderVariants.Schedule
