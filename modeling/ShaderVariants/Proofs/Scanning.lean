import ShaderVariants.Schedule.Scan
import ShaderVariants.Text.Quoted

/-! # Scanning what was written

Text is put together from pieces: blanks, marks, words, quoted text. `Scans text P` says that a
piece scans as tokens with the property `P` and leaves what follows to itself, provided that no word
runs from the piece into what follows (`Apart`). Pieces compose (`Scans.append`), so a whole text
scans piece by piece, and the grammar of its tokens can be put together along the way. -/
namespace ShaderVariants.Schedule
open Text

/-- No word runs from one text into the next. -/
def Apart (text rest : List Char) : Prop :=
  ∀ a ∈ text.getLast?, ∀ b ∈ rest.head?, isWordChar a = true → isWordChar b = false

def Scans (text : List Char) (P : List Token → Prop) : Prop :=
  ∀ p rest, Apart text rest → ∃ p' tokens, P tokens ∧
    tokenize ⟨p, text ++ rest⟩ =
      (tokens ++ (tokenize ⟨p', rest⟩).1, (tokenize ⟨p', rest⟩).2)

theorem Apart.nil_right (text : List Char) : Apart text [] := by
  intro a _ b hb
  cases hb

theorem Apart.cons_right {c : Char} (h : isWordChar c = false) (text rest : List Char) :
    Apart text (c :: rest) := by
  intro a _ b hb _
  cases hb
  exact h

theorem Apart.singleton_left {c : Char} (h : isWordChar c = false) (rest : List Char) :
    Apart [c] rest := by
  intro a ha b _ hw
  obtain rfl : c = a := by simpa using ha
  rw [h] at hw
  cases hw

/-- Texts that all start with a mark. -/
theorem Apart.flatMap_right {α : Type} {c : Char} (h : isWordChar c = false) (text : List Char)
    (f : α → List Char) (l : List α) : Apart text (l.flatMap fun x => c :: f x) := by
  cases l with
  | nil => exact .nil_right text
  | cons x l => exact .cons_right h text _

/-! ## One token -/

theorem tokenize_blank {c : Char} (h : isBlank c = true) (p : Position) (rest : List Char) :
    tokenize ⟨p, c :: rest⟩ = tokenize ⟨p.step c, rest⟩ := by
  have hscan : scan ⟨p, c :: rest⟩ = scan ⟨p.step c, rest⟩ := by
    simp only [scan, skip, h, if_true]
  rw [tokenize, hscan, ← tokenize]

theorem cut_kind_ne_finish (c : Char) (cs : List Char) : (cut c cs).1 ≠ .finish := by
  unfold cut
  split
  · dsimp only
    split <;> simp
  · split
    · dsimp only
      split <;> simp
    · unfold punctuation
      repeat' split
      all_goals simp

theorem tokenize_of_finish {cursor : Cursor} (h : (scan cursor).1.kind = .finish) :
    tokenize cursor = ([], (scan cursor).1) := by
  rw [tokenize, if_pos h]

theorem tokenize_end {p q : Position} {text : List Char}
    (h : skip .plain p text = .upTo ⟨q, []⟩) :
    tokenize ⟨p, text⟩ = ([], .ofText .finish q []) := by
  have hscan : scan ⟨p, text⟩ = (.ofText .finish q [], ⟨q, []⟩) := by
    simp only [scan, h]
  have hkind : (scan ⟨p, text⟩).1.kind = .finish := by
    rw [hscan]
    rfl
  rw [tokenize_of_finish hkind, hscan]

/-- What skipping ends in front of starts a token. -/
theorem tokenize_upTo {p q : Position} {text : List Char} {c : Char} {cs : List Char}
    (h : skip .plain p text = .upTo ⟨q, c :: cs⟩) :
    tokenize ⟨p, text⟩ =
      (Token.ofText (cut c cs).1 q (cut c cs).2.1 ::
          (tokenize ⟨q.advance (cut c cs).2.1, (cut c cs).2.2⟩).1,
        (tokenize ⟨q.advance (cut c cs).2.1, (cut c cs).2.2⟩).2) := by
  have hscan : scan ⟨p, text⟩ = (Token.ofText (cut c cs).1 q (cut c cs).2.1,
      ⟨q.advance (cut c cs).2.1, (cut c cs).2.2⟩) := by
    simp only [scan, h]
  have hkind : (scan ⟨p, text⟩).1.kind ≠ .finish := by
    rw [hscan]
    exact cut_kind_ne_finish c cs
  rw [tokenize, if_neg hkind, hscan]

/-- A character that starts neither blanks nor a comment starts a token. -/
theorem tokenize_cut {c : Char} (hb : isBlank c = false) (hc : c ≠ '/') (p : Position)
    (cs : List Char) :
    tokenize ⟨p, c :: cs⟩ =
      (Token.ofText (cut c cs).1 p (cut c cs).2.1 ::
          (tokenize ⟨p.advance (cut c cs).2.1, (cut c cs).2.2⟩).1,
        (tokenize ⟨p.advance (cut c cs).2.1, (cut c cs).2.2⟩).2) := by
  have hskip : skip .plain p (c :: cs) = .upTo ⟨p, c :: cs⟩ := by
    simp [skip, hb, hc]
  exact tokenize_upTo hskip

theorem tokenize_openComment {p opener finish : Position} {text : List Char}
    (h : skip .plain p text = .openComment opener finish) :
    tokenize ⟨p, text⟩ =
      ([{ kind := .invalid .openComment, lexeme := "", span := opener.span ['/', '*'] }],
        .ofText .finish finish []) := by
  have hscan : scan ⟨p, text⟩ =
      ({ kind := .invalid .openComment, lexeme := "", span := opener.span ['/', '*'] },
        ⟨finish, []⟩) := by
    simp only [scan, h]
  have hkind : (scan ⟨p, text⟩).1.kind ≠ .finish := by
    rw [hscan]
    simp
  rw [tokenize, if_neg hkind, hscan, tokenize_end (skip_plain_nil finish)]

/-! ## Pieces -/

variable {a b text : List Char} {P Q : List Token → Prop}

theorem Scans.imp (h : Scans text P) (hPQ : ∀ ts, P ts → Q ts) : Scans text Q := by
  intro p rest hrest
  obtain ⟨p', ts, hts, htok⟩ := h p rest hrest
  exact ⟨p', ts, hPQ ts hts, htok⟩

theorem scans_nil : Scans [] (· = []) := by
  intro p rest _
  exact ⟨p, [], rfl, rfl⟩

theorem Scans.append (ha : Scans a P) (hb : Scans b Q) (hab : Apart a b) :
    Scans (a ++ b) fun ts => ∃ us vs, P us ∧ Q vs ∧ ts = us ++ vs := by
  intro p rest hrest
  have hleft : Apart a (b ++ rest) := by
    cases b with
    | nil => simpa using hrest
    | cons c b => exact hab
  have hright : Apart b rest := by
    cases hl : b.getLast? with
    | none =>
      intro x hx
      rw [hl] at hx
      cases hx
    | some z =>
      intro x hx
      refine hrest x ?_
      rw [List.getLast?_append, hl]
      rw [hl] at hx
      exact hx
  obtain ⟨p₁, us, hus, htok⟩ := ha p (b ++ rest) hleft
  obtain ⟨p₂, vs, hvs, htok'⟩ := hb p₁ rest hright
  refine ⟨p₂, us ++ vs, ⟨us, vs, hus, hvs, rfl⟩, ?_⟩
  rw [List.append_assoc, htok, htok', List.append_assoc]

theorem isBlank_of_isWordChar {c : Char} (h : isWordChar c = true) : isBlank c = false := by
  have hn : (65 ≤ c.toNat ∧ c.toNat ≤ 90) ∨ (97 ≤ c.toNat ∧ c.toNat ≤ 122) ∨
      (48 ≤ c.toNat ∧ c.toNat ≤ 57) ∨ c.toNat = 95 := by
    have hcases : (((c.val ≥ 'A'.val ∧ c.val ≤ 'Z'.val) ∨ (c.val ≥ 'a'.val ∧ c.val ≤ 'z'.val)) ∨
        (c.val ≥ '0'.val ∧ c.val ≤ '9'.val)) ∨ c = '_' := by
      have hbool : (((decide (c.val ≥ 'A'.val ∧ c.val ≤ 'Z'.val) ||
          (decide (c.val ≥ 'a'.val) && decide (c.val ≤ 'z'.val))) ||
          (decide (c.val ≥ '0'.val) && decide (c.val ≤ '9'.val))) || c == '_') = true := h
      simpa using hbool
    simp only [ge_iff_le, UInt32.le_iff_toNat_le] at hcases
    rcases hcases with ((h | h) | h) | rfl
    · exact Or.inl h
    · exact Or.inr (Or.inl h)
    · exact Or.inr (Or.inr (Or.inl h))
    · exact Or.inr (Or.inr (Or.inr rfl))
  simp only [isBlank, Bool.or_eq_false_iff, Bool.and_eq_false_iff, decide_eq_false_iff_not,
    beq_eq_false_iff_ne]
  omega

theorem isWordChar_of_isBlank {c : Char} (h : isBlank c = true) : isWordChar c = false := by
  cases hw : isWordChar c with
  | false => rfl
  | true => rw [isBlank_of_isWordChar hw] at h; cases h

/-- Blanks in front of a piece go unnoticed. -/
theorem Scans.blank {c : Char} (h : isBlank c = true) (ha : Scans a P) : Scans (c :: a) P := by
  have hc : Scans [c] (· = []) := by
    intro p rest _
    exact ⟨p.step c, [], rfl, tokenize_blank h p rest⟩
  refine (hc.append ha (.singleton_left (isWordChar_of_isBlank h) a)).imp ?_
  intro ts hts
  obtain ⟨_, vs, rfl, hvs, rfl⟩ := hts
  exact hvs

theorem Scans.space (ha : Scans a P) : Scans (' ' :: a) P := ha.blank (by decide)

/-- A piece that is cut off as one well-formed token. -/
theorem scans_token {c : Char} {cs : List Char} {kind : Token.Kind} (hb : isBlank c = false)
    (hc : c ≠ '/') (hk : ∀ fault, kind ≠ .invalid fault)
    (hcut : ∀ rest, Apart (c :: cs) rest → cut c (cs ++ rest) = (kind, c :: cs, rest)) :
    Scans (c :: cs) fun ts =>
      ∃ t : Token, t.kind = kind ∧ t.lexeme = String.ofList (c :: cs) ∧ ts = [t] := by
  intro p rest hrest
  have htok := tokenize_cut hb hc p (cs ++ rest)
  rw [hcut rest hrest] at htok
  refine ⟨p.advance (c :: cs), [Token.ofText kind p (c :: cs)], ⟨_, rfl, ?_, rfl⟩, htok⟩
  cases kind with
  | invalid fault => exact absurd rfl (hk fault)
  | _ => rfl

/-- The marks of schedule text. -/
inductive Mark : Char → Token.Kind → Prop
  | equal : Mark '=' .equal
  | comma : Mark ',' .comma
  | semicolon : Mark ';' .semicolon
  | colon : Mark ':' .colon
  | dot : Mark '.' .dot
  | leftParen : Mark '(' .leftParen
  | rightParen : Mark ')' .rightParen

theorem Mark.isWordChar_eq {c : Char} {kind : Token.Kind} (h : Mark c kind) :
    isWordChar c = false := by
  cases h <;> decide

theorem Mark.scans {c : Char} {kind : Token.Kind} (h : Mark c kind) :
    Scans [c] fun ts => ∃ t : Token, t.kind = kind ∧ ts = [t] := by
  have htoken : Scans [c] fun ts =>
      ∃ t : Token, t.kind = kind ∧ t.lexeme = String.ofList [c] ∧ ts = [t] :=
    scans_token (by cases h <;> decide) (by cases h <;> decide) (by cases h <;> simp)
      (fun rest _ => by cases h <;> rfl)
  refine htoken.imp ?_
  intro ts hts
  obtain ⟨t, ht, _, rfl⟩ := hts
  exact ⟨t, ht, rfl⟩

theorem Scans.mark {c : Char} {kind : Token.Kind} (h : Mark c kind) (ha : Scans a P) :
    Scans (c :: a) fun ts =>
      ∃ (t : Token) (us : List Token), t.kind = kind ∧ P us ∧ ts = t :: us := by
  refine (h.scans.append ha (.singleton_left h.isWordChar_eq a)).imp ?_
  intro ts hts
  obtain ⟨_, us, ⟨t, ht, rfl⟩, hus, rfl⟩ := hts
  exact ⟨t, us, ht, hus, rfl⟩

/-- The kind of a word. -/
def wordKind (w : List Char) : Token.Kind := if w = "attrib".toList then .attrib else .identifier

theorem isWordChar_of_isWord {w : List Char} (h : isWord w = true) :
    ∀ a ∈ w, isWordChar a = true := by
  cases w with
  | nil => cases h
  | cons c cs =>
    obtain ⟨hc, hcs⟩ := Bool.and_eq_true_iff.mp h
    exact List.forall_mem_cons.mpr ⟨isWordChar_of_isWordStart hc, List.all_eq_true.mp hcs⟩

theorem not_mem_of_isWord {w : List Char} (h : isWord w = true) {c : Char}
    (hc : isWordChar c = false) : c ∉ w := by
  intro hmem
  have hword := isWordChar_of_isWord h c hmem
  rw [hc] at hword
  cases hword

theorem scans_word {w : List Char} (h : isWord w = true) :
    Scans w fun ts => ∃ t : Token, t.kind = wordKind w ∧ t.lexeme = String.ofList w ∧ ts = [t] := by
  cases w with
  | nil => cases h
  | cons c cs =>
    obtain ⟨hc, _⟩ := Bool.and_eq_true_iff.mp h
    have hall := isWordChar_of_isWord h
    have hblank := isBlank_of_isWordChar (isWordChar_of_isWordStart hc)
    refine scans_token hblank ?_ ?_ fun rest hrest => ?_
    · rintro rfl
      revert hc
      decide
    · intro fault
      unfold wordKind
      split <;> simp
    · have hq : c ≠ '"' := by
        rintro rfl
        revert hc
        decide
      -- what follows does not go on with the word
      have hstop : ∀ b ∈ rest.head?, ¬ isWordChar b = true := by
        intro b hb
        have hlast := List.getLast?_eq_some_getLast (List.cons_ne_nil c cs)
        rw [hrest _ hlast b hb (hall _ (List.getLast_mem _))]
        simp
      have htake : rest.takeWhile isWordChar = [] := by
        cases rest with
        | nil => rfl
        | cons b rest => exact List.takeWhile_cons_of_neg (hstop b rfl)
      have hdrop : rest.dropWhile isWordChar = rest := by
        cases rest with
        | nil => rfl
        | cons b rest => exact List.dropWhile_cons_of_neg (hstop b rfl)
      have hcs' : ∀ a ∈ cs, isWordChar a = true := fun a ha => hall a (List.mem_cons_of_mem c ha)
      rw [cut, if_neg hq, if_pos hc, List.takeWhile_append_of_pos hcs',
        List.dropWhile_append_of_pos hcs', htake, hdrop, List.append_nil]
      rfl

theorem cutString_escape (cs rest : List Char) :
    cutString (escape cs ++ '"' :: rest) = (escape cs ++ ['"'], rest, true) := by
  induction cs with
  | nil => simp [escape, cutString]
  | cons c cs ih =>
    have hesc : escape (c :: cs) = escapeChar c ++ escape cs := rfl
    rw [hesc, List.append_assoc]
    by_cases h1 : c = '"'
    · subst h1
      simp [escapeChar, cutString, ih]
    by_cases h2 : c = '\\'
    · subst h2
      simp [escapeChar, cutString, ih]
    by_cases h3 : c = '\n'
    · subst h3
      simp [escapeChar, cutString, ih]
    by_cases h4 : c = '\t'
    · subst h4
      simp [escapeChar, cutString, ih]
    have hplain : escapeChar c = [c] := by simp [escapeChar, h1, h2, h3, h4]
    rw [hplain, List.singleton_append, cutString]
    · simp [h1, h3, ih]
    · intro _ _ h
      exact absurd h h2

theorem scans_quoted (cs : List Char) :
    Scans ('"' :: (escape cs ++ ['"'])) fun ts => ∃ t : Token, t.kind = .string ∧
      t.lexeme = String.ofList ('"' :: (escape cs ++ ['"'])) ∧ ts = [t] := by
  refine scans_token (by decide) (by decide) (by simp) fun rest _ => ?_
  rw [List.append_assoc]
  simp [cut, cutString_escape]

end ShaderVariants.Schedule
