import ShaderVariants.Proofs.Coverage

/-! # Tokens and lines

A span is a line, a column and a length, so it can only say where a token is if the token lies in
that line. That is so for all tokens but string literals in which a backslash stands before a
newline: the backslash takes the newline with it, and the span goes on past the end of the line
(`span_in_line_iff`). -/
namespace ShaderVariants.Schedule
open Text

/-- The lines of a text. -/
def textLines (source : String) : List (List Char) := source.toList.splitOn '\n'

/-- A span does not go on past the end of its line. -/
def InLine (source : String) (s : Span) : Prop :=
  ∃ line, (textLines source)[s.line - 1]? = some line ∧ s.col - 1 + s.len ≤ byteCount line

/-! ## Lines of a text -/

theorem splitOn_newline_head (text : List Char) :
    (text.splitOn '\n')[0]? = some (text.takeWhile (· != '\n')) := by
  induction text with
  | nil => rfl
  | cons c text ih =>
    rw [List.splitOn_cons_eq_if_modifyHead]
    by_cases h : c = '\n'
    · simp [h]
    · simp [h, ih]

theorem length_splitOn_newline (text : List Char) :
    (text.splitOn '\n').length = text.count '\n' + 1 := by
  induction text with
  | nil => rfl
  | cons c text ih =>
    rw [List.splitOn_cons_eq_if_modifyHead]
    by_cases h : c = '\n' <;> simp [h, ih]

/-- The line in which a text goes on. -/
theorem line_behind (before rest : List Char) :
    ((before ++ rest).splitOn '\n')[before.count '\n']? =
      some (lastLine before ++ rest.takeWhile (· != '\n')) := by
  induction before using List.reverseRecOn generalizing rest with
  | nil => exact splitOn_newline_head rest
  | append_singleton before c ih =>
    rw [lastLine_concat, List.append_assoc, List.singleton_append, List.count_append,
      List.count_singleton]
    by_cases h : c = '\n'
    · subst h
      rw [List.splitOn_append_cons_self, List.getElem?_append_right, length_splitOn_newline]
      · simpa using splitOn_newline_head rest
      · simp [length_splitOn_newline]
    · have hline := ih (c :: rest)
      simpa [h] using hline

theorem takeWhile_ended {front : List Char} (h : '\n' ∉ front) (rest : List Char) :
    (front ++ '\n' :: rest).takeWhile (· != '\n') = front := by
  have hall : ∀ c ∈ front, (c != '\n') = true := fun c hc => bne_iff_ne.mpr fun he => h (he ▸ hc)
  rw [List.takeWhile_append_of_pos hall, List.takeWhile_cons_of_neg (by simp), List.append_nil]

/-- A token lies in its line iff the text that it takes has no newline. -/
theorem Stands.inLine_iff {source : String} {before text after : List Char} {t : Token}
    (h : Stands before text t) (hsource : source.toList = before ++ (text ++ after)) :
    InLine source t.span ↔ '\n' ∉ text := by
  have hline := line_behind before (text ++ after)
  have hfits : InLine source t.span ↔
      byteCount text ≤ byteCount ((text ++ after).takeWhile (· != '\n')) := by
    rw [InLine, textLines, hsource, h.line, h.col, h.len, Nat.add_sub_cancel_left,
      Nat.add_sub_cancel_left, hline]
    simp [byteCount_append]
  rw [hfits]
  refine ⟨fun hle hmem => ?_, fun hnone => ?_⟩
  · obtain ⟨front, rest, rfl, hfront⟩ := List.eq_append_cons_of_mem hmem
    rw [List.append_assoc, List.cons_append, takeWhile_ended hfront, byteCount_append,
      byteCount_cons] at hle
    have hpos := Char.utf8Size_pos '\n'
    omega
  · have hall : ∀ c ∈ text, (c != '\n') = true :=
      fun c hc => bne_iff_ne.mpr fun he => hnone (he ▸ hc)
    rw [List.takeWhile_append_of_pos hall, byteCount_append]
    exact Nat.le_add_right _ _

/-! ## Newlines in tokens -/

/-- A newline behind a backslash. -/
def escapedNewline : List Char := ['\\', '\n']

theorem Literal.newline_iff {text : List Char} (h : Literal text true) :
    '\n' ∈ text ↔ escapedNewline <:+: text := by
  refine ⟨fun hmem => ?_, fun hinfix => hinfix.subset (by simp [escapedNewline])⟩
  generalize hclosed : true = closed at h
  induction h with
  | quote => simp at hmem
  | newline => cases hclosed
  | finish => cases hclosed
  | backslash => cases hclosed
  | char _ _ hc _ ih =>
    rcases List.mem_cons.mp hmem with hnewline | hmem
    · exact absurd hnewline.symm hc
    · exact List.infix_cons (ih hmem hclosed)
  | @escape c rest closed _ ih =>
    rcases List.mem_cons.mp hmem with hnewline | hmem
    · simp at hnewline
    rcases List.mem_cons.mp hmem with rfl | hmem
    · exact List.IsPrefix.isInfix ⟨rest, rfl⟩
    · exact List.infix_cons (List.infix_cons (ih hmem hclosed))

/-- Of the well-formed tokens only a string literal has a newline in it, and there it is escaped. -/
theorem Shape.newline_iff {kind : Token.Kind} {text : List Char} (h : Shape kind text)
    (hvalid : ∀ fault, kind ≠ .invalid fault) :
    '\n' ∈ text ↔ kind = .string ∧ escapedNewline <:+: text := by
  cases h with
  | word hword =>
    have hnone : '\n' ∉ text := not_mem_of_isWord hword (by decide)
    have hkind : wordKind text ≠ .string := by
      unfold wordKind
      split <;> simp
    simp [hnone, hkind]
  | mark hmark => cases hmark <;> simp
  | @string text hliteral =>
    have hquote : ¬ escapedNewline <+: '"' :: text := fun hstart => by
      have hfirst := (List.cons_prefix_cons.mp hstart).1
      revert hfirst
      decide
    rw [List.mem_cons, List.infix_cons_iff, hliteral.newline_iff]
    simp [hquote]
  | stray _ _ _ => exact absurd rfl (hvalid _)
  | openString _ => exact absurd rfl (hvalid _)

/-- The span of a well-formed token lies in its line iff there is no newline in the token, and there
is one iff the token is a string literal with a newline behind a backslash. -/
theorem span_in_line_iff (source : String) {t : Token} (ht : t ∈ (tokenize (.ofText source)).1)
    (hvalid : t.error? = none) :
    (InLine source t.span ↔ '\n' ∉ t.lexeme.toList) ∧
      ('\n' ∈ t.lexeme.toList ↔ t.kind = .string ∧ escapedNewline <:+: t.lexeme.toList) := by
  obtain ⟨before, text, after, hsplit, hstands, hshape⟩ :=
    (covers_tokenize [] source.toList).stands t ht
  have hkind : ∀ fault, t.kind ≠ .invalid fault := by
    intro fault hfault
    rw [Token.error?, hfault] at hvalid
    cases hvalid
  have hshape := hshape.resolve_right (hkind _)
  rw [hstands.lexeme hvalid]
  exact ⟨hstands.inLine_iff hsplit, hshape.newline_iff hkind⟩

/-- A literal that goes on in the next line. -/
def foldedText : String := "\"a\\\nb\""

def foldedLiteral : Token := ⟨.string, "\"a\\\nb\"", ⟨1, 1, 6⟩⟩

theorem foldedLiteral_mem : foldedLiteral ∈ (tokenize (.ofText foldedText)).1 := by
  decide +kernel

theorem span_in_line_iff_foldedText : foldedLiteral ∈ (tokenize (.ofText foldedText)).1 ∧
    foldedLiteral.error? = none ∧ ¬ InLine foldedText foldedLiteral.span ∧
      foldedLiteral.kind = .string ∧ escapedNewline <:+: foldedLiteral.lexeme.toList := by
  have hnewline : '\n' ∈ foldedLiteral.lexeme.toList := by decide
  have h := span_in_line_iff foldedText foldedLiteral_mem rfl
  exact ⟨foldedLiteral_mem, rfl, fun hin => h.1.mp hin hnewline, h.2.mp hnewline⟩

/-- Well-formed tokens can go on in the next line. -/
theorem not_tokens_in_line : ¬ ∀ source : String, ∀ t ∈ (tokenize (.ofText source)).1,
    t.error? = none → '\n' ∉ t.lexeme.toList ∧ InLine source t.span := by
  intro h
  have hnewline : '\n' ∈ foldedLiteral.lexeme.toList := by decide
  exact (h foldedText foldedLiteral foldedLiteral_mem rfl).1 hnewline

end ShaderVariants.Schedule
