import Mathlib.Data.List.Forall2
import ShaderVariants.Proofs.Recovery

/-! # What is reported

Errors come from two sides. Every malformed token accounts for one by itself. Besides, each piece of
the text between semicolons is read on its own, and where it is no entry there is one error about
the first token that no entry goes on with, unless that token is malformed and accounts for itself
already (`Reported`). Nothing else is reported, and nothing twice (`read_reports`). -/
namespace ShaderVariants.Schedule

/-- The tokens of a text, cut behind every semicolon. What follows the last one is a piece too, if
there is anything. -/
inductive Cut : List Token → List (List Token) → Prop
  | nil : Cut [] []
  | tail {us} : us ≠ [] → Open us → Cut us [us]
  | segment {us z rest pieces} : Open us → z.kind = .semicolon → Cut rest pieces →
      Cut (us ++ z :: rest) ((us ++ [z]) :: pieces)

/-- What is reported of a piece besides its malformed tokens, in a text with the given finishing
token. -/
inductive Reported (finish : Token) : List Token → Option SyntaxError → Prop
  | entry {ts entry} : IsEntry ts entry → Reported finish ts none
  | malformed {us t vs fault} : StartsEntry us → ¬ StartsEntry (us ++ [t]) →
      t.kind = .invalid fault → Reported finish (us ++ t :: vs) none
  | unexpected {us t vs expected} : StartsEntry us → ¬ StartsEntry (us ++ [t]) →
      (∀ fault, t.kind ≠ .invalid fault) →
      Reported finish (us ++ t :: vs) (some (.expected t.span expected t.describe))
  | ended {us expected} : StartsEntry us → (∀ entry, ¬ IsEntry us entry) →
      Reported finish us (some (.atEnd finish.span expected))

theorem Cut.flatten {tokens : List Token} {pieces : List (List Token)} (h : Cut tokens pieces) :
    pieces.flatten = tokens := by
  induction h with
  | nil => rfl
  | tail _ _ => simp
  | segment _ _ _ ih => simp [ih]

/-- A text is entries one after the other if all its pieces are entries. -/
theorem Cut.areEntries {tokens : List Token} {pieces : List (List Token)} (h : Cut tokens pieces)
    (hall : ∀ piece ∈ pieces, ∃ entry, IsEntry piece entry) :
    ∃ entries, AreEntries tokens entries := by
  induction h with
  | nil => exact ⟨[], .nil⟩
  | @tail us _ _ =>
    obtain ⟨entry, hentry⟩ := hall us List.mem_cons_self
    have hone := AreEntries.cons hentry .nil
    rw [List.append_nil] at hone
    exact ⟨_, hone⟩
  | @segment us z rest pieces _ _ _ ih =>
    obtain ⟨⟨entry, hentry⟩, hrest⟩ := List.forall_mem_cons.mp hall
    obtain ⟨entries, hentries⟩ := ih hrest
    have hcons := AreEntries.cons hentry hentries
    rw [List.append_assoc, List.singleton_append] at hcons
    exact ⟨_, hcons⟩

/-- The report of a piece that reading stops in. The piece goes at least up to the token at which
reading stops. -/
theorem Stops.reported {ts : List Token} {missing : Missing} (h : Stops ts missing.rest)
    (finish : Token) (front : List Token) {rest : List Token}
    (hrest : missing.rest = front ++ rest) (hfront : front = [] → missing.rest = []) :
    Reported finish (ts ++ front) (missing.error? finish) := by
  cases front with
  | nil =>
    rw [Missing.error?, hfront rfl, List.append_nil]
    exact .ended h.starts h.whole
  | cons t front =>
    rw [List.cons_append] at hrest
    have ht := h.next t (by rw [hrest]; rfl)
    rw [Missing.error?, hrest]
    dsimp only
    split
    · rename_i fault hfault
      exact .malformed h.starts ht hfault
    · rename_i hvalid
      exact .unexpected h.starts ht hvalid

/-- The error of what reading an entry came to. -/
def broken? (finish : Token) : Except Missing Entry → Option SyntaxError
  | .ok _ => none
  | .error missing => missing.error? finish

/-- Every piece is read once, and reports what it has to. -/
theorem readEntries_reported (finish : Token) (tokens : List Token) :
    ∃ pieces, Cut tokens pieces ∧
      List.Forall₂ (Reported finish) pieces ((readEntries tokens).map (broken? finish)) := by
  fun_induction readEntries tokens with
  | case1 => exact ⟨[], .nil, .nil⟩
  | case2 t ts entry rest hread ih =>
    have h := Entry.derives_read (t :: ts)
    simp only [hread] at h
    obtain ⟨us, htokens, hentry⟩ := h
    obtain ⟨vs, z, rfl, hvs, hz⟩ := hentry.ended
    obtain ⟨pieces, hcut, hpieces⟩ := ih
    rw [List.append_assoc, List.singleton_append] at htokens
    rw [htokens]
    exact ⟨_, .segment hvs.open hz hcut, .cons (.entry hentry) hpieces⟩
  | case3 t ts missing hread ih =>
    obtain ⟨us, htokens, hstops⟩ := Entry.stops hread
    have hus : Open us := (hstops.starts.inner hstops.whole).open
    obtain ⟨pieces, hcut, hpieces⟩ := ih
    rcases open_or_ended missing.rest with hopen | ⟨vs, z, rest, hrest, hvs, hz⟩
    · -- no semicolon follows, so this was the last piece
      rw [skipEntry_of_open hopen] at hcut hpieces ⊢
      have hall : Open (t :: ts) := htokens ▸ List.forall_mem_append.mpr ⟨hus, hopen⟩
      have hreported := hstops.reported finish _ (List.append_nil _).symm id
      rw [← htokens] at hreported
      refine ⟨[t :: ts], .tail (List.cons_ne_nil t ts) hall, .cons hreported ?_⟩
      rw [readEntries]
      exact .nil
    · rw [hrest, skipEntry_ended hvs hz] at hcut hpieces ⊢
      have hopen : Open (us ++ vs) := List.forall_mem_append.mpr ⟨hus, hvs⟩
      have hfront : missing.rest = (vs ++ [z]) ++ rest := by simp [hrest]
      have hreported := hstops.reported finish _ hfront (by simp)
      rw [← List.append_assoc] at hreported
      rw [htokens, hrest, ← List.append_assoc]
      exact ⟨_, .segment hopen hz hcut, .cons hreported hpieces⟩

/-- A piece that is no entry is reported, at one of its tokens or, if it is the last one, at the end
of the text. A malformed token reports it by itself. -/
theorem Reported.of_not_entry {finish : Token} {piece : List Token} {report : Option SyntaxError}
    (h : Reported finish piece report) (hnone : ∀ entry, ¬ IsEntry piece entry) :
    ∃ e, (report = some e ∨ ∃ t ∈ piece, t.error? = some e) ∧
      ((∃ t ∈ piece, e.span = t.span) ∨ Open piece ∧ e.span = finish.span) := by
  cases h with
  | entry hentry => exact absurd hentry (hnone _)
  | @malformed us t vs fault _ _ hfault =>
    have hmem : t ∈ us ++ t :: vs := List.mem_append_right us List.mem_cons_self
    have herror : t.error? = some ⟨fault.kind, t.span, fault.message⟩ := by
      rw [Token.error?, hfault]
    exact ⟨_, .inr ⟨t, hmem, herror⟩, .inl ⟨t, hmem, rfl⟩⟩
  | @unexpected us t vs expected _ _ _ =>
    have hmem : t ∈ us ++ t :: vs := List.mem_append_right us List.mem_cons_self
    exact ⟨_, .inl rfl, .inl ⟨t, hmem, rfl⟩⟩
  | ended hstarts hwhole => exact ⟨_, .inl rfl, .inr ⟨(hstarts.inner hwhole).open, rfl⟩⟩

theorem exists_report {R : List Token → Option SyntaxError → Prop} {pieces : List (List Token)}
    {reports : List (Option SyntaxError)} (h : List.Forall₂ R pieces reports) {piece : List Token}
    (hpiece : piece ∈ pieces) : ∃ report ∈ reports, R piece report := by
  induction h with
  | nil => cases hpiece
  | cons hrel _ ih =>
    rcases List.mem_cons.mp hpiece with rfl | hpiece
    · exact ⟨_, List.mem_cons_self, hrel⟩
    · obtain ⟨report, hreport, hrel⟩ := ih hpiece
      exact ⟨report, List.mem_cons_of_mem _ hreport, hrel⟩

theorem notAfter_iff {a b : SyntaxError} : a.notAfter b = true ↔
    a.span.line < b.span.line ∨ a.span.line = b.span.line ∧ a.span.col ≤ b.span.col := by
  simp [SyntaxError.notAfter]

theorem pairwise_sorted (errors : List SyntaxError) :
    (errors.mergeSort SyntaxError.notAfter).Pairwise fun a b =>
      a.span.line < b.span.line ∨ a.span.line = b.span.line ∧ a.span.col ≤ b.span.col := by
  have h : (errors.mergeSort SyntaxError.notAfter).Pairwise fun a b => a.notAfter b = true := by
    refine List.pairwise_mergeSort (fun a b c hab hbc => ?_) (fun a b => ?_) errors
    · rw [notAfter_iff] at *
      omega
    · rw [Bool.or_eq_true, notAfter_iff, notAfter_iff]
      omega
  simpa only [notAfter_iff] using h

theorem read_errors (source : String) : (read source).2 =
    ((tokenize (.ofText source)).1.filterMap Token.error? ++
      ((readEntries (tokenize (.ofText source)).1).map
        (broken? (tokenize (.ofText source)).2)).filterMap id).mergeSort SyntaxError.notAfter := by
  rw [List.filterMap_map]
  rfl

/-- The errors of a text, from top to bottom, are those of its malformed tokens, one for each, and
one for each piece between semicolons that is no entry and does not stop at a malformed token. So
there are none iff the text is entries one after the other, and no other piece goes unnoticed. -/
theorem read_reports (source : String) : ∃ pieces reports,
    Cut (tokenize (.ofText source)).1 pieces ∧
    List.Forall₂ (Reported (tokenize (.ofText source)).2) pieces reports ∧
    ((read source).2.Perm
      ((tokenize (.ofText source)).1.filterMap Token.error? ++ reports.filterMap id)) ∧
    ((read source).2.Pairwise fun a b =>
      a.span.line < b.span.line ∨ a.span.line = b.span.line ∧ a.span.col ≤ b.span.col) ∧
    ((read source).2 = [] ↔ ∃ entries, AreEntries (tokenize (.ofText source)).1 entries) ∧
    ∀ piece ∈ pieces, (∀ entry, ¬ IsEntry piece entry) → ∃ e ∈ (read source).2,
      (∃ t ∈ piece, e.span = t.span) ∨
        Open piece ∧ e.span = (tokenize (.ofText source)).2.span := by
  have herrors := read_errors source
  generalize htok : tokenize (.ofText source) = scanned at herrors ⊢
  obtain ⟨tokens, finish⟩ := scanned
  obtain ⟨pieces, hcut, hreported⟩ := readEntries_reported finish tokens
  generalize (readEntries tokens).map (broken? finish) = reports at herrors hreported
  have hperm : (read source).2.Perm (tokens.filterMap Token.error? ++ reports.filterMap id) := by
    rw [herrors]
    exact List.mergeSort_perm _ _
  have hnoticed : ∀ piece ∈ pieces, (∀ entry, ¬ IsEntry piece entry) → ∃ e ∈ (read source).2,
      (∃ t ∈ piece, e.span = t.span) ∨ Open piece ∧ e.span = finish.span := by
    intro piece hpiece hnone
    obtain ⟨report, hreport, hrel⟩ := exists_report hreported hpiece
    obtain ⟨e, he, hspan⟩ := hrel.of_not_entry hnone
    refine ⟨e, hperm.mem_iff.mpr (List.mem_append.mpr ?_), hspan⟩
    rcases he with rfl | ⟨t, hmem, herror⟩
    · exact .inr (List.mem_filterMap.mpr ⟨_, hreport, rfl⟩)
    · have htokens : t ∈ tokens := hcut.flatten ▸ List.mem_flatten.mpr ⟨piece, hpiece, hmem⟩
      exact .inl (List.mem_filterMap.mpr ⟨t, htokens, herror⟩)
  refine ⟨pieces, reports, hcut, hreported, hperm, ?_, ⟨fun hempty => ?_, ?_⟩, hnoticed⟩
  · rw [herrors]
    exact pairwise_sorted _
  · refine hcut.areEntries fun piece hpiece => ?_
    by_contra hnone
    obtain ⟨e, he, _⟩ := hnoticed piece hpiece (not_exists.mp hnone)
    rw [hempty] at he
    cases he
  · rintro ⟨entries, hentries⟩
    rw [read_of_areEntries htok hentries]

end ShaderVariants.Schedule
