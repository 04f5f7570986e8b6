import Mathlib.Data.List.GetD
import ShaderVariants.Proofs.Lookahead
import ShaderVariants.Proofs.Recovery
import ShaderVariants.Proofs.Skipping

/-! # Reading comes to an end

Nothing is read without something being taken for it. A scan that does not find the end of the text
takes a character, however malformed the text is (`scan_takes`). One turn of reading entries takes a
token, be it for a complete entry or for a broken one, whose remains are passed over (`turn_takes`).
So there are no more tokens than characters, and no more turns than tokens. -/
namespace ShaderVariants.Schedule

/-! ## Scanning -/

theorem cut_ne_nil (c : Char) (cs : List Char) : (cut c cs).2.1 ≠ [] := by
  intro hnil
  have hcut := cut_append c cs
  have hlen := cut_length c cs
  rw [hnil, List.nil_append] at hcut
  rw [hcut, List.length_cons] at hlen
  omega

/-- What a scan can do: it passes over the whole text, cuts a token behind filler, or ends in a
block comment that is never closed. -/
inductive Scanned (p : Position) : List Char → Token × Cursor → Prop
  | finish (text) : Scanned p text (.ofText .finish (p.advance text) [], ⟨p.advance text, []⟩)
  | cut {gap c cs} : Filler gap → Scanned p (gap ++ c :: cs)
      (.ofText (cut c cs).1 (p.advance gap) (cut c cs).2.1,
        ⟨p.advance (gap ++ (cut c cs).2.1), (cut c cs).2.2⟩)
  | openComment {gap body} : Filler gap → Scanned p (gap ++ '/' :: '*' :: body)
      ({ kind := .invalid .openComment, lexeme := "", span := (p.advance gap).span ['/', '*'] },
        ⟨p.advance (gap ++ '/' :: '*' :: body), []⟩)

theorem scanned_scan (p : Position) (text : List Char) : Scanned p text (scan ⟨p, text⟩) := by
  have hskips := skips_skip p text
  generalize hskip : skip .plain p text = gap at hskips
  unfold scan
  rw [hskip]
  cases hskips with
  | @stop gap rest hgap =>
    cases rest with
    | nil =>
      rw [List.append_nil]
      exact .finish gap
    | cons c cs =>
      dsimp only
      rw [← Position.advance_append]
      exact .cut hgap
  | lineComment _ _ => exact .finish _
  | openComment hgap _ => exact .openComment hgap

/-- A scan goes on from the end of what it takes, and takes nothing only at the end of the text. -/
theorem scan_takes (cursor : Cursor) : ∃ taken,
    cursor.rest = taken ++ (scan cursor).2.rest ∧
    (scan cursor).2.position = cursor.position.advance taken ∧
    ((scan cursor).1.kind = .finish → (scan cursor).2.rest = []) ∧
    ((scan cursor).1.kind ≠ .finish → taken ≠ []) := by
  obtain ⟨p, text⟩ := cursor
  have hscanned := scanned_scan p text
  generalize scan ⟨p, text⟩ = result at hscanned
  cases hscanned with
  | finish text =>
    exact ⟨text, (List.append_nil _).symm, rfl, fun _ => rfl, fun hkind => absurd rfl hkind⟩
  | @cut gap c cs _ =>
    refine ⟨gap ++ (cut c cs).2.1, ?_, rfl, ?_, ?_⟩
    · rw [List.append_assoc, cut_append]
    · exact fun hkind => absurd hkind (cut_kind_ne_finish c cs)
    · exact fun _ hnil => cut_ne_nil c cs (List.append_eq_nil_iff.mp hnil).2
  | @openComment gap body _ =>
    exact ⟨_, (List.append_nil _).symm, rfl, fun _ => rfl, by simp⟩

theorem length_tokenize_le (cursor : Cursor) :
    (tokenize cursor).1.length ≤ cursor.rest.length := by
  fun_induction tokenize cursor with
  | case1 cursor hkind => exact Nat.zero_le _
  | case2 cursor hkind tokens finish htok ih =>
    have hlt := scan_rest_lt hkind
    have hrest : tokens.length ≤ (scan cursor).2.rest.length := by rwa [htok] at ih
    rw [List.length_cons]
    omega

/-- The finishing token is none of the others. -/
theorem kind_tokenize (cursor : Cursor) :
    (∀ t ∈ (tokenize cursor).1, t.kind ≠ .finish) ∧ (tokenize cursor).2.kind = .finish := by
  fun_induction tokenize cursor with
  | case1 cursor hkind => exact ⟨List.forall_mem_nil _, hkind⟩
  | case2 cursor hkind tokens finish htok ih =>
    rw [htok] at ih
    exact ⟨List.forall_mem_cons.mpr ⟨hkind, ih.1⟩, ih.2⟩

/-- Behind its tokens a text gives the finishing token, and not before. -/
theorem kind_scan_cursorAt (start : Cursor) (k : Nat) :
    (scan (cursorAt start k)).1.kind = .finish ↔ (tokenize start).1.length ≤ k := by
  obtain ⟨hkinds, hfinish⟩ := kind_tokenize start
  rw [scan_cursorAt, tokenAt]
  constructor
  · intro hkind
    by_contra hlt
    rw [List.getD_eq_getElem _ _ (Nat.lt_of_not_le hlt)] at hkind
    exact hkinds _ (List.getElem_mem _) hkind
  · intro hle
    rw [List.getD_eq_default _ _ hle]
    exact hfinish

/-! ## Reading entries -/

/-- One turn: an entry is read, or else what is left of it passed over. -/
def turn (tokens : List Token) : Except Missing Entry × List Token :=
  match Entry.read tokens with
  | .ok (entry, rest) => (.ok entry, rest)
  | .error missing => (.error missing, skipEntry missing.rest)

theorem readEntries_cons (t : Token) (ts : List Token) :
    readEntries (t :: ts) = (turn (t :: ts)).1 :: readEntries (turn (t :: ts)).2 := by
  unfold turn
  rw [readEntries]
  split
  · rename_i entry rest hread
    rw [hread]
  · rename_i missing hread
    rw [hread]

/-- What is passed over ends with the next semicolon, or with the text. -/
theorem skipEntry_passes (tokens : List Token) :
    ∃ passed, tokens = passed ++ skipEntry tokens ∧ (tokens ≠ [] → passed ≠ []) := by
  rcases open_or_ended tokens with hopen | ⟨us, z, rest, rfl, hus, hz⟩
  · rw [skipEntry_of_open hopen]
    exact ⟨tokens, (List.append_nil _).symm, id⟩
  · rw [skipEntry_ended hus hz]
    exact ⟨us ++ [z], by simp, by simp⟩

theorem turn_takes (t : Token) (ts : List Token) :
    ∃ taken, taken ≠ [] ∧ t :: ts = taken ++ (turn (t :: ts)).2 := by
  have hderives := Entry.derives_read (t :: ts)
  unfold turn
  cases hread : Entry.read (t :: ts) with
  | ok p =>
    simp only [hread] at hderives
    obtain ⟨us, htokens, hentry⟩ := hderives
    obtain ⟨vs, z, rfl, _⟩ := hentry.ended
    exact ⟨vs ++ [z], by simp, htokens⟩
  | error missing =>
    simp only [hread] at hderives
    obtain ⟨us, htokens, _⟩ := hderives
    obtain ⟨passed, hpassed, hne⟩ := skipEntry_passes missing.rest
    refine ⟨us ++ passed, fun hnil => ?_, by rw [List.append_assoc, ← hpassed, htokens]⟩
    -- had nothing been taken, all of the tokens would be left to be passed over
    obtain ⟨rfl, rfl⟩ := List.append_eq_nil_iff.mp hnil
    exact hne (by rw [← List.nil_append missing.rest, ← htokens]; simp) rfl

theorem length_turn_lt (t : Token) (ts : List Token) :
    (turn (t :: ts)).2.length < (t :: ts).length := by
  obtain ⟨taken, hne, htokens⟩ := turn_takes t ts
  have hpos := List.length_pos_iff.mpr hne
  have hlen := congrArg List.length htokens
  rw [List.length_append] at hlen
  omega

/-- The tokens that are left after so many turns. -/
def leftAfter (tokens : List Token) (n : Nat) : List Token := (fun ts => (turn ts).2)^[n] tokens

/-- Reading is one turn after the other until no token is left. -/
theorem readEntries_turns (tokens : List Token) : ∃ n ≤ tokens.length,
    leftAfter tokens n = [] ∧ (∀ k < n, leftAfter tokens k ≠ []) ∧
      readEntries tokens = (List.range n).map fun k => (turn (leftAfter tokens k)).1 := by
  induction hlen : tokens.length using Nat.strongRecOn generalizing tokens with
  | ind m ih =>
    cases tokens with
    | nil =>
      rw [readEntries]
      exact ⟨0, Nat.zero_le _, rfl, by simp, rfl⟩
    | cons t ts =>
      have hlt := length_turn_lt t ts
      rw [hlen] at hlt
      obtain ⟨n, hn, hend, hbefore, hread⟩ := ih _ hlt _ rfl
      refine ⟨n + 1, by omega, hend, fun k hk => ?_, ?_⟩
      · cases k with
        | zero => exact List.cons_ne_nil t ts
        | succ k => exact hbefore k (Nat.lt_of_succ_lt_succ hk)
      · rw [readEntries_cons, hread, List.range_succ_eq_map, List.map_cons, List.map_map]
        rfl

/-- Reading ends on every text. From wherever it starts, a scan takes at least one character unless
it gives the finishing token, and that is at the end of the text. Every turn of reading entries
takes at least one token. So the finishing token comes after at most as many scans as there are
characters, and no token is left after at most as many turns as there are tokens before it. -/
theorem reading_ends (source : String) :
    (∀ cursor, ∃ taken, cursor.rest = taken ++ (scan cursor).2.rest ∧
      (scan cursor).2.position = cursor.position.advance taken ∧
      ((scan cursor).1.kind = .finish → (scan cursor).2.rest = []) ∧
      ((scan cursor).1.kind ≠ .finish → taken ≠ [])) ∧
    (∀ t ts, ∃ taken, taken ≠ [] ∧ t :: ts = taken ++ (turn (t :: ts)).2) ∧
    (∃ n ≤ (tokenize (.ofText source)).1.length, leftAfter (tokenize (.ofText source)).1 n = [] ∧
      (∀ k < n, leftAfter (tokenize (.ofText source)).1 k ≠ []) ∧
      readEntries (tokenize (.ofText source)).1 =
        (List.range n).map fun k => (turn (leftAfter (tokenize (.ofText source)).1 k)).1) ∧
    (tokenize (.ofText source)).1.length ≤ source.length ∧
    ∀ k, (scan (cursorAt (.ofText source) k)).1.kind = .finish ↔
      (tokenize (.ofText source)).1.length ≤ k := by
  refine ⟨scan_takes, turn_takes, readEntries_turns _, ?_, kind_scan_cursorAt _⟩
  rw [← String.length_toList]
  exact length_tokenize_le (.ofText source)

end ShaderVariants.Schedule
