import Mathlib.Data.List.Induction
import ShaderVariants.Proofs.Scanning
import ShaderVariants.Proofs.Skipping

/-! # Where tokens stand

Line, column and length of a token are counted along while the text is scanned. Here they are
counted afterwards, from the text in front of the token (`Stands`). Scanning takes the text apart
without a remainder: filler, a token, filler, a token, up to the end or to a block comment that is
never closed (`Covers`). What each kind of token looks like is said in `Shape`. -/
namespace ShaderVariants.Schedule
open Text

/-! ## Counting -/

/-- The number of bytes of a text in UTF-8. -/
def byteCount (text : List Char) : Nat := (String.ofList text).utf8ByteSize

/-- The part of a text behind its last newline. -/
def lastLine (text : List Char) : List Char := (text.reverse.takeWhile (· != '\n')).reverse

theorem byteCount_append (a b : List Char) : byteCount (a ++ b) = byteCount a + byteCount b := by
  rw [byteCount, String.ofList_append, String.utf8ByteSize_append]
  rfl

theorem byteCount_singleton (c : Char) : byteCount [c] = c.utf8Size := by
  rw [byteCount, ← String.singleton_eq_ofList, String.utf8ByteSize_singleton]

theorem byteCount_cons (c : Char) (text : List Char) :
    byteCount (c :: text) = c.utf8Size + byteCount text := by
  rw [← List.singleton_append, byteCount_append, byteCount_singleton]

theorem lastLine_concat (text : List Char) (c : Char) :
    lastLine (text ++ [c]) = if c = '\n' then [] else lastLine text ++ [c] := by
  by_cases h : c = '\n' <;> simp [lastLine, h]

theorem Position.span_eq (p : Position) (text : List Char) :
    p.span text = ⟨p.line, p.col, byteCount text⟩ := by
  have hlen : (text.map Char.utf8Size).foldr (· + ·) 0 = byteCount text := by
    induction text with
    | nil => rfl
    | cons c text ih => rw [List.map_cons, List.foldr_cons, ih, byteCount_cons]
  rw [Position.span, hlen]

/-- The position counted along is the position counted afterwards. -/
theorem Position.advance_start (text : List Char) : Position.advance {} text =
    ⟨1 + text.count '\n', 1 + byteCount (lastLine text)⟩ := by
  induction text using List.reverseRecOn with
  | nil => rfl
  | append_singleton text c ih =>
    rw [Position.advance_append, ih, lastLine_concat, List.count_append]
    show Position.step _ c = _
    by_cases h : c = '\n'
    · subst h
      rfl
    · rw [Position.step, if_neg h, if_neg h, byteCount_append, byteCount_singleton,
        List.count_singleton]
      simp [h, Nat.add_assoc]

/-- A token takes a text that follows another one. Unless it is malformed, that text is its
lexeme. -/
structure Stands (before text : List Char) (t : Token) : Prop where
  line : t.span.line = 1 + before.count '\n'
  col : t.span.col = 1 + byteCount (lastLine before)
  len : t.span.len = byteCount text
  lexeme : t.error? = none → t.lexeme.toList = text

theorem stands_ofText (kind : Token.Kind) (before text : List Char) :
    Stands before text (.ofText kind (Position.advance {} before) text) := by
  have hspan : (Token.ofText kind (Position.advance {} before) text).span =
      ⟨1 + before.count '\n', 1 + byteCount (lastLine before), byteCount text⟩ := by
    show Position.span _ text = _
    rw [Position.span_eq, Position.advance_start]
  refine ⟨by rw [hspan], by rw [hspan], by rw [hspan], fun hvalid => ?_⟩
  cases kind with
  | invalid fault => cases hvalid
  | _ => exact String.toList_ofList

/-! ## The kinds of tokens -/

/-- A string literal behind its opening quote, and whether it is closed. A backslash takes the next
character with it. A literal that is not closed goes up to a newline or to the end of the text. -/
inductive Literal : List Char → Bool → Prop
  | quote : Literal ['"'] true
  | newline : Literal ['\n'] false
  | finish : Literal [] false
  | backslash : Literal ['\\'] false
  | char {c rest closed} : c ≠ '"' → c ≠ '\\' → c ≠ '\n' → Literal rest closed →
      Literal (c :: rest) closed
  | escape {c rest closed} : Literal rest closed → Literal ('\\' :: c :: rest) closed

/-- What a token of a kind looks like. -/
inductive Shape : Token.Kind → List Char → Prop
  | word {w} : isWord w = true → Shape (wordKind w) w
  | mark {c kind} : Mark c kind → Shape kind [c]
  | string {text} : Literal text true → Shape .string ('"' :: text)
  | stray {c} : c ≠ '"' → isWordStart c = false → (∀ kind, ¬ Mark c kind) →
      Shape (.invalid (.strayCharacter c)) [c]
  | openString {text} : Literal text false → Shape (.invalid .openString) ('"' :: text)

theorem cutString_literal (cs : List Char) : Literal (cutString cs).1 (cutString cs).2.2 := by
  fun_induction cutString cs with
  | case1 => exact .finish
  | case2 c rest text rest' closed hcut ih =>
    rw [hcut] at ih
    exact .escape ih
  | case3 c rest => exact .quote
  | case4 => exact .newline
  | case5 c rest hescape hquote hnewline text rest' closed hcut ih =>
    rw [hcut] at ih
    by_cases hc : c = '\\'
    · subst hc
      -- nothing follows the backslash, or it would be an escape
      cases rest with
      | cons d rest => exact (hescape d rest rfl rfl).elim
      | nil =>
        rw [cutString] at hcut
        cases hcut
        exact .backslash
    · exact .char hquote hc hnewline ih

theorem punctuation_shape {c : Char} (hquote : c ≠ '"') (hword : isWordStart c = false) :
    Shape (punctuation c) [c] := by
  unfold punctuation
  split_ifs with h₁ h₂ h₃ h₄ h₅ h₆ h₇
  · exact h₁ ▸ .mark .equal
  · exact h₂ ▸ .mark .comma
  · exact h₃ ▸ .mark .semicolon
  · exact h₄ ▸ .mark .colon
  · exact h₅ ▸ .mark .dot
  · exact h₆ ▸ .mark .leftParen
  · exact h₇ ▸ .mark .rightParen
  · refine .stray hquote hword fun kind hmark => ?_
    cases hmark <;> contradiction

theorem cut_shape (c : Char) (cs : List Char) : Shape (cut c cs).1 (cut c cs).2.1 := by
  have hliteral := cutString_literal cs
  unfold cut
  split_ifs with hquote hstart
  · subst hquote
    dsimp only
    cases hclosed : (cutString cs).2.2 with
    | true =>
      rw [hclosed] at hliteral
      exact .string hliteral
    | false =>
      rw [hclosed] at hliteral
      exact .openString hliteral
  · have hword : isWord (c :: cs.takeWhile isWordChar) = true := by
      rw [isWord, hstart, Bool.true_and, List.all_takeWhile]
    exact .word hword
  · exact punctuation_shape hquote (Bool.eq_false_iff.mpr hstart)

/-! ## Taking a text apart -/

/-- The finishing token behind a whole text. -/
def Finishes (text : List Char) (t : Token) : Prop := t.kind = .finish ∧ Stands text [] t

/-- A text is taken apart into the tokens that follow one another in it, with filler between them.
The first text is what stands in front. -/
inductive Covers : List Char → List Char → List Token → Token → Prop
  | token {before gap text rest t ts finish} : Filler gap → Shape t.kind text →
      Stands (before ++ gap) text t → Covers (before ++ gap ++ text) rest ts finish →
      Covers before (gap ++ (text ++ rest)) (t :: ts) finish
  | finish {before gap finish} : Filler gap → Finishes (before ++ gap) finish →
      Covers before gap [] finish
  | lineComment {before gap body finish} : Filler gap → '\n' ∉ body →
      Finishes (before ++ (gap ++ '/' :: '/' :: body)) finish →
      Covers before (gap ++ '/' :: '/' :: body) [] finish
  | openComment {before gap body t finish} : Filler gap → ¬ closer <:+: body →
      t.kind = .invalid .openComment → Stands (before ++ gap) ['/', '*'] t →
      Finishes (before ++ (gap ++ '/' :: '*' :: body)) finish →
      Covers before (gap ++ '/' :: '*' :: body) [t] finish

theorem finishes_ofText (text : List Char) :
    Finishes text (.ofText .finish (Position.advance {} text) []) :=
  ⟨rfl, stands_ofText .finish text []⟩

theorem covers_tokenize (before text : List Char) :
    Covers before text (tokenize ⟨Position.advance {} before, text⟩).1
      (tokenize ⟨Position.advance {} before, text⟩).2 := by
  induction hlen : text.length using Nat.strongRecOn generalizing before text with
  | ind n ih =>
    have hskips := skips_skip (Position.advance {} before) text
    generalize hskip : skip .plain (Position.advance {} before) text = gap at hskips
    cases hskips with
    | @stop gap rest hgap =>
      rw [← Position.advance_append] at hskip
      cases rest with
      | nil =>
        rw [tokenize_end hskip, List.append_nil]
        exact .finish hgap (finishes_ofText _)
      | cons c cs =>
        have hcut := cut_append c cs
        have hrest := ih _ (by have := cut_length c cs; simp at hlen; omega)
          (before ++ gap ++ (cut c cs).2.1) (cut c cs).2.2 rfl
        rw [Position.advance_append] at hrest
        rw [tokenize_upTo hskip, ← hcut]
        exact .token hgap (cut_shape c cs) (stands_ofText _ _ _) hrest
    | @lineComment gap body hgap hbody =>
      rw [← Position.advance_append] at hskip
      rw [tokenize_end hskip]
      exact .lineComment hgap hbody (finishes_ofText _)
    | @openComment gap body hgap hbody =>
      rw [← Position.advance_append, ← Position.advance_append] at hskip
      rw [tokenize_openComment hskip]
      exact .openComment hgap hbody rfl (stands_ofText (.invalid .openComment) _ _)
        (finishes_ofText _)

/-- Every token stands somewhere in the text, in the shape of its kind. -/
theorem Covers.stands {before text : List Char} {ts : List Token} {finish : Token}
    (h : Covers before text ts finish) : ∀ t ∈ ts, ∃ front piece after,
      before ++ text = front ++ (piece ++ after) ∧ Stands front piece t ∧
        (Shape t.kind piece ∨ t.kind = .invalid .openComment) := by
  induction h with
  | @token before gap text rest t ts finish _ hshape ht _ ih =>
    refine List.forall_mem_cons.mpr ⟨⟨_, text, rest, by simp, ht, .inl hshape⟩, fun u hu => ?_⟩
    obtain ⟨front, piece, after, hsplit, hstands⟩ := ih u hu
    exact ⟨front, piece, after, by rw [← hsplit]; simp, hstands⟩
  | finish _ _ => exact List.forall_mem_nil _
  | lineComment _ _ _ => exact List.forall_mem_nil _
  | @openComment before gap body t finish _ _ hkind ht _ =>
    exact List.forall_mem_singleton.mpr ⟨_, _, body, by simp, ht, .inr hkind⟩

theorem Covers.finishes {before text : List Char} {ts : List Token} {finish : Token}
    (h : Covers before text ts finish) : Finishes (before ++ text) finish := by
  induction h with
  | token _ _ _ _ ih =>
    simp only [List.append_assoc] at ih
    exact ih
  | finish _ hfinish => exact hfinish
  | lineComment _ _ hfinish => exact hfinish
  | openComment _ _ _ _ hfinish => exact hfinish

theorem length_le_byteCount (text : List Char) : text.length ≤ byteCount text := by
  induction text with
  | nil => exact Nat.le_refl 0
  | cons c text ih =>
    have hc := c.utf8Size_pos
    rw [byteCount_cons, List.length_cons]
    omega

theorem byteCount_lastLine_le (text : List Char) : byteCount (lastLine text) ≤ byteCount text := by
  induction text using List.reverseRecOn with
  | nil => exact Nat.le_refl 0
  | append_singleton text c ih =>
    rw [lastLine_concat]
    split
    · exact Nat.zero_le _
    · rw [byteCount_append, byteCount_append]
      omega

/-- No count is larger than that of the bytes of the text, by more than the one it starts from. -/
theorem Stands.bounded {before text after : List Char} {t : Token} (h : Stands before text t) :
    t.span.line ≤ 1 + byteCount (before ++ (text ++ after)) ∧
      t.span.col ≤ 1 + byteCount (before ++ (text ++ after)) ∧
      t.span.len ≤ byteCount (before ++ (text ++ after)) := by
  have hline : before.count '\n' ≤ byteCount before :=
    Nat.le_trans List.count_le_length (length_le_byteCount before)
  have hcol := byteCount_lastLine_le before
  rw [h.line, h.col, h.len, byteCount_append, byteCount_append]
  omega

/-- Tokens point at their text and nothing is left out. The text is filler and tokens in turn, up to
its end or a block comment that is never closed. Each token, the finishing one included, has the
line, the column and the length of the text that it takes, counted from the text in front of it, and
unless it is malformed that text is its lexeme. In a text of less than `2 ^ 32 - 1` bytes every
count is less than `2 ^ 32`. -/
theorem tokenize_covers (source : String) :
    Covers [] source.toList (tokenize (.ofText source)).1 (tokenize (.ofText source)).2 ∧
    ∀ t ∈ (tokenize (.ofText source)).1 ++ [(tokenize (.ofText source)).2],
      (∃ before text after, source.toList = before ++ (text ++ after) ∧ Stands before text t) ∧
      t.span.line ≤ 1 + source.utf8ByteSize ∧ t.span.col ≤ 1 + source.utf8ByteSize ∧
      t.span.len ≤ source.utf8ByteSize := by
  have hcovers := covers_tokenize [] source.toList
  have hall : ∀ t ∈ (tokenize (.ofText source)).1 ++ [(tokenize (.ofText source)).2],
      ∃ before text after, source.toList = before ++ (text ++ after) ∧ Stands before text t := by
    refine List.forall_mem_append.mpr ⟨fun t ht => ?_, List.forall_mem_singleton.mpr ?_⟩
    · obtain ⟨before, text, after, hsplit, hstands, _⟩ := hcovers.stands t ht
      exact ⟨before, text, after, hsplit, hstands⟩
    · exact ⟨source.toList, [], [], by simp, hcovers.finishes.2⟩
  refine ⟨hcovers, fun t ht => ?_⟩
  obtain ⟨before, text, after, hsplit, hstands⟩ := hall t ht
  have hsize : source.utf8ByteSize = byteCount (before ++ (text ++ after)) := by
    rw [← hsplit, byteCount, String.ofList_toList]
  rw [hsize]
  exact ⟨⟨before, text, after, hsplit, hstands⟩, hstands.bounded⟩

-- a comment over two lines, behind a character of two bytes
example : (tokenize (.ofText "é = /* \n */ a // b")).1.map Token.span =
    [⟨1, 1, 2⟩, ⟨1, 4, 1⟩, ⟨2, 5, 1⟩] := by decide +kernel

end ShaderVariants.Schedule
