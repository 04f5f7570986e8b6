import ShaderVariants.Schedule.Scan

/-! # What is skipped

Between tokens there are blanks and comments. `Filler` says which text that is, comment by comment:
a line comment goes up to its newline, a block comment up to the first closer. Skipping passes over
filler and ends in one of three ways (`Skips`): in front of something else, in a line comment that
the text ends in, or in a block comment that is never closed. -/
namespace ShaderVariants.Schedule
open Text

theorem Position.advance_append (p : Position) (a b : List Char) :
    p.advance (a ++ b) = (p.advance a).advance b :=
  List.foldl_append

/-- What closes a block comment. -/
def closer : List Char := ['*', '/']

/-- Blanks and complete comments. -/
inductive Filler : List Char → Prop
  | nil : Filler []
  | blank {c rest} : isBlank c = true → Filler rest → Filler (c :: rest)
  | line {body rest} : '\n' ∉ body → Filler rest → Filler ('/' :: '/' :: (body ++ '\n' :: rest))
  | block {body rest} : ¬ closer <:+: body → Filler rest →
      Filler ('/' :: '*' :: (body ++ '*' :: '/' :: rest))

theorem Filler.append {a b : List Char} (ha : Filler a) (hb : Filler b) : Filler (a ++ b) := by
  induction ha with
  | nil => exact hb
  | blank hc _ ih => exact .blank hc ih
  | line hbody _ ih =>
    simp only [List.cons_append, List.append_assoc]
    exact .line hbody ih
  | block hbody _ ih =>
    simp only [List.cons_append, List.append_assoc]
    exact .block hbody ih

/-! ## Comments -/

theorem skip_line_ended {body : List Char} (h : '\n' ∉ body) (p : Position) (rest : List Char) :
    skip .line p (body ++ '\n' :: rest) = skip .plain (p.advance (body ++ ['\n'])) rest := by
  induction body generalizing p with
  | nil => rfl
  | cons c body ih =>
    obtain ⟨hc, hbody⟩ := not_or.mp (mt List.mem_cons.mpr h)
    rw [List.cons_append, skip, if_neg (Ne.symm hc), ih hbody]
    rfl

theorem skip_line_unended {body : List Char} (h : '\n' ∉ body) (p : Position) :
    skip .line p body = .upTo ⟨p.advance body, []⟩ := by
  induction body generalizing p with
  | nil => rfl
  | cons c body ih =>
    obtain ⟨hc, hbody⟩ := not_or.mp (mt List.mem_cons.mpr h)
    rw [skip, if_neg (Ne.symm hc), ih hbody]
    rfl

/-- Without a closer, no slash follows a star. -/
theorem not_closer_cons {c : Char} {text : List Char} (h : ¬ closer <:+: c :: text) :
    ¬ closer <:+: text ∧ (c = '*' → text.head? ≠ some '/') := by
  refine ⟨fun hinfix => h (List.infix_cons hinfix), ?_⟩
  rintro rfl hhead
  obtain ⟨rest, rfl⟩ := List.head?_eq_some_iff.mp hhead
  exact h (List.IsPrefix.isInfix ⟨rest, rfl⟩)

theorem skip_block_cons {opener : Position} {star : Bool} {c : Char}
    (h : star = true → c ≠ '/') (p : Position) (rest : List Char) :
    skip (.block opener star) p (c :: rest) = skip (.block opener (c = '*')) (p.step c) rest := by
  have hopen : ¬ (star = true ∧ c = '/') := fun hboth => h hboth.1 hboth.2
  rw [skip, if_neg hopen]

/-- The flag tells whether a star stands in front, so that the comment could be closed at once. -/
theorem skip_block_ended {opener : Position} {star : Bool} {body : List Char}
    (h : ¬ closer <:+: body) (hstar : star = true → body.head? ≠ some '/') (p : Position)
    (rest : List Char) :
    skip (.block opener star) p (body ++ '*' :: '/' :: rest) =
      skip .plain (p.advance (body ++ closer)) rest := by
  induction body generalizing star p with
  | nil =>
    rw [List.nil_append, skip_block_cons (by simp), skip, if_pos (by simp)]
    rfl
  | cons c body ih =>
    obtain ⟨hbody, hhead⟩ := not_closer_cons h
    have hc : star = true → c ≠ '/' := fun hs hc => hstar hs (by rw [hc]; rfl)
    rw [List.cons_append, skip_block_cons hc, ih hbody (by simpa using hhead)]
    rfl

theorem skip_block_unended {opener : Position} {star : Bool} {body : List Char}
    (h : ¬ closer <:+: body) (hstar : star = true → body.head? ≠ some '/') (p : Position) :
    skip (.block opener star) p body = .openComment opener (p.advance body) := by
  induction body generalizing star p with
  | nil => rfl
  | cons c body ih =>
    obtain ⟨hbody, hhead⟩ := not_closer_cons h
    have hc : star = true → c ≠ '/' := fun hs hc => hstar hs (by rw [hc]; rfl)
    rw [skip_block_cons hc, ih hbody (by simpa using hhead)]
    rfl

/-- The first closer of a text, if there is one. -/
theorem unended_or_ended (text : List Char) : ¬ closer <:+: text ∨
    ∃ body rest, text = body ++ '*' :: '/' :: rest ∧ ¬ closer <:+: body := by
  induction text with
  | nil => exact .inl (by simp [closer])
  | cons c text ih =>
    by_cases hcloser : closer <+: c :: text
    · obtain ⟨rest, hrest⟩ := hcloser
      exact .inr ⟨[], rest, hrest.symm, by simp [closer]⟩
    · rcases ih with hnone | ⟨body, rest, rfl, hbody⟩
      · exact .inl fun hinfix => (List.infix_cons_iff.mp hinfix).elim hcloser hnone
      · refine .inr ⟨c :: body, rest, rfl, fun hinfix => ?_⟩
        rcases List.infix_cons_iff.mp hinfix with hfirst | hlater
        · exact hcloser (hfirst.trans (List.prefix_append _ _))
        · exact hbody hlater

/-! ## Skipping -/

/-- How skipping a text ends. -/
inductive Skips (p : Position) : List Char → Gap → Prop
  | stop {gap rest} : Filler gap → Skips p (gap ++ rest) (.upTo ⟨p.advance gap, rest⟩)
  | lineComment {gap body} : Filler gap → '\n' ∉ body →
      Skips p (gap ++ '/' :: '/' :: body) (.upTo ⟨p.advance (gap ++ '/' :: '/' :: body), []⟩)
  | openComment {gap body} : Filler gap → ¬ closer <:+: body →
      Skips p (gap ++ '/' :: '*' :: body)
        (.openComment (p.advance gap) (p.advance (gap ++ '/' :: '*' :: body)))

theorem Skips.behind {p : Position} {filler text : List Char} {gap : Gap} (hfiller : Filler filler)
    (h : Skips (p.advance filler) text gap) : Skips p (filler ++ text) gap := by
  cases h with
  | stop hgap =>
    rw [← List.append_assoc, ← Position.advance_append]
    exact .stop (hfiller.append hgap)
  | lineComment hgap hbody =>
    rw [← Position.advance_append, ← List.append_assoc]
    exact .lineComment (hfiller.append hgap) hbody
  | openComment hgap hbody =>
    rw [← Position.advance_append, ← Position.advance_append, ← List.append_assoc]
    exact .openComment (hfiller.append hgap) hbody

theorem skips_skip (p : Position) (text : List Char) : Skips p text (skip .plain p text) := by
  induction hlen : text.length using Nat.strongRecOn generalizing p text with
  | ind n ih =>
    cases text with
    | nil => exact .stop .nil
    | cons c rest =>
      rw [skip]
      split
      · rename_i hc
        exact .behind (.blank hc .nil) (ih _ (by rw [← hlen]; simp) (p.step c) rest rfl)
      split
      · rename_i hc
        obtain ⟨rfl, hhead⟩ := hc
        obtain ⟨text, rfl⟩ := List.head?_eq_some_iff.mp hhead
        rw [skip, if_neg (by decide)]
        by_cases hnewline : '\n' ∈ text
        · obtain ⟨body, rest, rfl, hbody⟩ := List.eq_append_cons_of_mem hnewline
          have hcomment : '/' :: '/' :: (body ++ '\n' :: rest) =
              '/' :: '/' :: (body ++ ['\n']) ++ rest := by simp
          have hlt : rest.length < n := by
            rw [← hlen, hcomment, List.length_append, List.length_cons]
            omega
          rw [skip_line_ended hbody, hcomment]
          exact .behind (.line hbody .nil) (ih _ hlt _ rest rfl)
        · rw [skip_line_unended hnewline]
          exact .lineComment .nil hnewline
      split
      · rename_i hc
        obtain ⟨rfl, hhead⟩ := hc
        obtain ⟨text, rfl⟩ := List.head?_eq_some_iff.mp hhead
        rw [skip]
        rcases unended_or_ended text with hnone | ⟨body, rest, rfl, hbody⟩
        · rw [skip_block_unended hnone (by simp)]
          exact .openComment .nil hnone
        · have hcomment : '/' :: '*' :: (body ++ '*' :: '/' :: rest) =
              '/' :: '*' :: (body ++ closer) ++ rest := by simp [closer]
          have hlt : rest.length < n := by
            rw [← hlen, hcomment, List.length_append, List.length_cons]
            omega
          rw [skip_block_ended hbody (by simp), hcomment]
          exact .behind (.block hbody .nil) (ih _ hlt _ rest rfl)
      · exact .stop .nil

end ShaderVariants.Schedule
