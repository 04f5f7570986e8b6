import ShaderVariants.Proofs.Coverage
import ShaderVariants.Proofs.Places

/-! # Filler goes unnoticed

A text without malformed tokens spells them one after the other, with filler in between and no word
running into the next (`Spells`). Scanning gives back what a text spells, wherever it stands
(`tokenize_spelled`). What is spelled does not change when filler is put in at a place where a token
ends or where the text starts (`Seam`), since neither filler nor what follows it goes on with the
token in front (`Seam.spells`). So the padded text has the same tokens, and reads the same. -/
namespace ShaderVariants.Schedule
open Text

/-! ## Scanning filler and tokens -/

/-- Skipping passes over filler and goes on behind it. -/
theorem Filler.skip {filler : List Char} (h : Filler filler) (p : Position) (rest : List Char) :
    skip .plain p (filler ++ rest) = skip .plain (p.advance filler) rest := by
  induction h generalizing p with
  | nil => rfl
  | blank hc _ ih =>
    rw [List.cons_append, Schedule.skip, if_pos hc, ih]
    rfl
  | @line body filler hbody _ ih =>
    simp only [List.cons_append, List.append_assoc]
    rw [Schedule.skip, if_neg (by decide), if_pos ⟨rfl, rfl⟩, Schedule.skip, if_neg (by decide),
      skip_line_ended hbody, ih]
    simp [Position.advance]
  | @block body filler hbody _ ih =>
    simp only [List.cons_append, List.append_assoc]
    rw [Schedule.skip, if_neg (by decide), if_neg (by simp), if_pos ⟨rfl, rfl⟩, Schedule.skip,
      skip_block_ended hbody (by simp), ih]
    simp [Position.advance, closer]

theorem Filler.tokenize {filler : List Char} (h : Filler filler) (p : Position)
    (rest : List Char) :
    tokenize ⟨p, filler ++ rest⟩ = tokenize ⟨p.advance filler, rest⟩ := by
  have hscan : scan ⟨p, filler ++ rest⟩ = scan ⟨p.advance filler, rest⟩ := by
    simp only [scan, h.skip]
  rw [Schedule.tokenize, hscan, ← Schedule.tokenize]

/-- Filler goes on with no word. -/
theorem Filler.apart {filler rest text : List Char} (h : Filler filler) (before : List Char)
    (hapart : Apart text (before ++ rest)) : Apart text (before ++ (filler ++ rest)) := by
  cases before with
  | cons c before => exact hapart
  | nil =>
    cases h with
    | nil => exact hapart
    | blank hc _ => exact .cons_right (isWordChar_of_isBlank hc) text _
    | line _ _ => exact .cons_right (by decide) text _
    | block _ _ => exact .cons_right (by decide) text _

/-- A closed literal is cut off at its closing quote, whatever follows. -/
theorem Literal.cutString {text : List Char} {closed : Bool} (h : Literal text closed)
    (hclosed : closed = true) (rest : List Char) :
    cutString (text ++ rest) = (text, rest, true) := by
  induction h with
  | quote => rfl
  | newline => cases hclosed
  | finish => cases hclosed
  | backslash => cases hclosed
  | @char c text closed hquote hslash hnewline _ ih =>
    rw [List.cons_append, Schedule.cutString, if_neg hquote, if_neg hnewline, ih hclosed]
    exact fun _ _ hc _ => hslash hc
  | @escape c text closed _ ih =>
    rw [List.cons_append, List.cons_append, Schedule.cutString, ih hclosed]

theorem Literal.getLast? {text : List Char} {closed : Bool} (h : Literal text closed)
    (hclosed : closed = true) : text.getLast? = some '"' := by
  induction h with
  | quote => rfl
  | newline => cases hclosed
  | finish => cases hclosed
  | backslash => cases hclosed
  | char _ _ _ _ ih => simp [List.getLast?_cons, ih hclosed]
  | escape _ ih => simp [List.getLast?_cons, ih hclosed]

/-- No word runs on from a closing quote. -/
theorem Literal.apart {text : List Char} (h : Literal text true) (c : Char) (rest : List Char) :
    Apart (c :: text) rest := by
  intro a ha b _ hword
  rw [List.getLast?_cons, h.getLast? rfl, Option.getD_some] at ha
  cases ha
  exact absurd hword (by decide)

/-- What is cut off is apart from the rest, unless it is malformed. -/
theorem cut_apart {c : Char} {cs : List Char} (hvalid : ∀ fault, (cut c cs).1 ≠ .invalid fault) :
    Apart (cut c cs).2.1 (cut c cs).2.2 := by
  have hshape := cut_shape c cs
  unfold cut at hvalid hshape ⊢
  split_ifs at hvalid hshape ⊢ with hquote hstart
  · dsimp only at hvalid ⊢
    have hliteral := cutString_literal cs
    cases hclosed : (cutString cs).2.2 with
    | true =>
      rw [hclosed] at hliteral
      exact hliteral.apart c _
    | false => exact absurd (by rw [hclosed]; rfl) (hvalid .openString)
  · intro a _ b hb _
    have hstop := List.head?_dropWhile_not isWordChar cs
    rw [Option.mem_def.mp hb] at hstop
    simpa using hstop
  · dsimp only at hvalid hshape ⊢
    generalize punctuation c = kind at hvalid hshape
    cases hshape with
    | word hword => simp [isWord, hstart] at hword
    | mark hmark => exact .singleton_left hmark.isWordChar_eq cs
    | string _ => exact absurd rfl hquote
    | stray _ _ _ => exact absurd rfl (hvalid _)
    | openString _ => exact absurd rfl hquote

/-- A well-formed piece scans as one token, with the piece as its lexeme. -/
theorem Shape.scans {kind : Token.Kind} {text : List Char} (h : Shape kind text)
    (hvalid : ∀ fault, kind ≠ .invalid fault) :
    Scans text fun ts => ts.map Token.bare = [⟨kind, String.ofList text, {}⟩] := by
  have hone : Scans text fun ts =>
      ∃ t : Token, t.kind = kind ∧ t.lexeme = String.ofList text ∧ ts = [t] := by
    cases h with
    | word hword => exact scans_word hword
    | mark hmark =>
      exact scans_token (by cases hmark <;> decide) (by cases hmark <;> decide) hvalid
        (fun rest _ => by cases hmark <;> rfl)
    | string hliteral =>
      refine scans_token (by decide) (by decide) hvalid fun rest _ => ?_
      rw [cut, if_pos rfl, hliteral.cutString rfl rest]
      rfl
    | stray _ _ _ => exact absurd rfl (hvalid _)
    | openString _ => exact absurd rfl (hvalid _)
  refine hone.imp ?_
  rintro _ ⟨t, rfl, hlexeme, rfl⟩
  simp [Token.bare, hlexeme]

/-! ## Spelling -/

/-- A text is filler and well-formed tokens in turn, given without their places. No word runs from a
token into what follows. -/
inductive Spells : List Char → List Token → Prop
  | token {gap text rest kind ts} : Filler gap → Shape kind text →
      (∀ fault, kind ≠ .invalid fault) → Apart text rest → Spells rest ts →
      Spells (gap ++ (text ++ rest)) (⟨kind, String.ofList text, {}⟩ :: ts)
  | finish {gap} : Filler gap → Spells gap []
  | lineComment {gap body} : Filler gap → '\n' ∉ body → Spells (gap ++ '/' :: '/' :: body) []

theorem Spells.filler {filler text : List Char} {ts : List Token} (hfiller : Filler filler)
    (h : Spells text ts) : Spells (filler ++ text) ts := by
  cases h with
  | token hgap hshape hvalid hapart hrest =>
    rw [← List.append_assoc]
    exact .token (hfiller.append hgap) hshape hvalid hapart hrest
  | finish hgap => exact .finish (hfiller.append hgap)
  | lineComment hgap hbody =>
    rw [← List.append_assoc]
    exact .lineComment (hfiller.append hgap) hbody

/-- Scanning gives what is spelled, wherever the text stands. -/
theorem tokenize_spelled {text : List Char} {ts : List Token} (h : Spells text ts)
    (p : Position) : (tokenize ⟨p, text⟩).1.map Token.bare = ts := by
  induction h generalizing p with
  | @token gap text rest kind ts hgap hshape hvalid hapart _ ih =>
    obtain ⟨q, tokens, htokens, htok⟩ := hshape.scans hvalid (p.advance gap) rest hapart
    rw [hgap.tokenize, htok, List.map_append, htokens, ih]
    rfl
  | @finish gap hgap =>
    have htok := hgap.tokenize p []
    rw [List.append_nil] at htok
    rw [htok, tokenize_end (skip_plain_nil _)]
    rfl
  | @lineComment gap body hgap hbody =>
    have hskip : skip .plain (p.advance gap) ('/' :: '/' :: body) =
        .upTo ⟨(p.advance gap).advance ('/' :: '/' :: body), []⟩ := by
      rw [skip, if_neg (by decide), if_pos ⟨rfl, rfl⟩, skip, if_neg (by decide),
        skip_line_unended hbody]
      rfl
    rw [hgap.tokenize, tokenize_end hskip]
    rfl

/-- A text without malformed tokens is passed over, or gives a first token and goes on behind it. -/
theorem tokenize_valid {p : Position} {text : List Char}
    (h : ∀ t ∈ (tokenize ⟨p, text⟩).1, t.error? = none) :
    ((tokenize ⟨p, text⟩).1 = [] ∧ Spells text []) ∨
      ∃ gap word rest kind, text = gap ++ (word ++ rest) ∧ word ≠ [] ∧ Filler gap ∧
        Shape kind word ∧ (∀ fault, kind ≠ .invalid fault) ∧ Apart word rest ∧
        (tokenize ⟨p, text⟩).1 = Token.ofText kind (p.advance gap) word ::
          (tokenize ⟨p.advance (gap ++ word), rest⟩).1 := by
  have hskips := skips_skip p text
  generalize hskip : skip .plain p text = gap at hskips
  cases hskips with
  | @stop gap rest hgap =>
    cases rest with
    | nil =>
      rw [List.append_nil] at hskip ⊢
      exact .inl ⟨by rw [tokenize_end hskip], .finish hgap⟩
    | cons c cs =>
      rw [tokenize_upTo hskip] at h ⊢
      have hvalid : ∀ fault, (cut c cs).1 ≠ .invalid fault := by
        intro fault hfault
        have hfirst := h _ List.mem_cons_self
        rw [Token.error?, show (Token.ofText (cut c cs).1 _ _).kind = _ from hfault] at hfirst
        cases hfirst
      refine .inr ⟨gap, (cut c cs).2.1, (cut c cs).2.2, (cut c cs).1, by rw [cut_append],
        cut_ne_nil c cs, hgap, cut_shape c cs, hvalid, cut_apart hvalid, ?_⟩
      rw [Position.advance_append]
  | @lineComment gap body hgap hbody =>
    exact .inl ⟨by rw [tokenize_end hskip], .lineComment hgap hbody⟩
  | @openComment gap body hgap hbody =>
    rw [tokenize_openComment hskip] at h
    cases h _ List.mem_cons_self

theorem bare_ofText {kind : Token.Kind} (h : ∀ fault, kind ≠ .invalid fault) (p : Position)
    (text : List Char) : (Token.ofText kind p text).bare = ⟨kind, String.ofList text, {}⟩ := by
  cases kind with
  | invalid fault => exact absurd rfl (h fault)
  | _ => rfl

theorem spells_tokenize {p : Position} {text : List Char}
    (h : ∀ t ∈ (tokenize ⟨p, text⟩).1, t.error? = none) :
    Spells text ((tokenize ⟨p, text⟩).1.map Token.bare) := by
  induction hlen : text.length using Nat.strongRecOn generalizing p text with
  | ind n ih =>
    rcases tokenize_valid h with ⟨hnil, hspells⟩ |
      ⟨gap, word, rest, kind, rfl, hne, hgap, hshape, hvalid, hapart, htok⟩
    · rw [hnil]
      exact hspells
    · rw [htok] at h ⊢
      have hlt : rest.length < n := by
        have := List.length_pos_iff.mpr hne
        simp only [← hlen, List.length_append]
        omega
      rw [List.map_cons, bare_ofText hvalid]
      exact .token hgap hshape hvalid hapart (ih _ hlt (List.forall_mem_cons.mp h).2 rfl)

/-! ## Where a token ends -/

/-- Two texts that start the same text are one, if a longer one would be told apart. -/
theorem eq_of_append_eq {α β : Type} {f : List α → β} {a b x y : List α} (h : a ++ x = b ++ y)
    (hf : ∀ front more, f front = f (front ++ more) → more = []) (hab : f a = f b) : a = b := by
  rcases List.append_eq_append_iff.mp h with ⟨m, rfl, _⟩ | ⟨m, rfl, _⟩
  · rw [hf a m hab, List.append_nil]
  · rw [hf b m hab.symm, List.append_nil]

theorem Position.eq_nil_of_advance {p : Position} (front more : List Char)
    (h : p.advance front = p.advance (front ++ more)) : more = [] := by
  have hle := (p.advance front).le_advance more
  rw [← Position.advance_append, ← h] at hle
  exact List.length_eq_zero_iff.mp (by omega)

theorem eq_nil_of_byteCount (front more : List Char)
    (h : byteCount front = byteCount (front ++ more)) : more = [] := by
  have hle := length_le_byteCount more
  rw [byteCount_append] at h
  exact List.length_eq_zero_iff.mp (by omega)

/-- A token stands in one place of a text only. -/
theorem Stands.unique {front piece rest front' piece' rest' : List Char} {t : Token}
    (h : Stands front piece t) (h' : Stands front' piece' t)
    (hsplit : front ++ (piece ++ rest) = front' ++ (piece' ++ rest')) :
    front = front' ∧ piece = piece' ∧ rest = rest' := by
  have hfront : front = front' := by
    refine eq_of_append_eq hsplit (Position.eq_nil_of_advance (p := {})) ?_
    rw [Position.advance_start, Position.advance_start, ← h.line, ← h.col, ← h'.line, ← h'.col]
  subst hfront
  have hrest := List.append_cancel_left hsplit
  have hpiece : piece = piece' :=
    eq_of_append_eq hrest eq_nil_of_byteCount (h.len.symm.trans h'.len)
  subst hpiece
  exact ⟨rfl, rfl, List.append_cancel_left hrest⟩

/-- A place of a text where a token ends, or the text starts. -/
inductive Seam (source : String) : List Char → List Char → Prop
  | start : Seam source [] source.toList
  | behind {front text rest t} : t ∈ (tokenize (.ofText source)).1 →
      source.toList = front ++ (text ++ rest) → Stands front text t →
      Seam source (front ++ text) rest

/-- Filler behind a token changes nothing of what a text spells. The text follows another one, from
which places are counted. -/
theorem spells_behind {filler : List Char} (hfiller : Filler filler) (first : List Char)
    {text : List Char}
    (hvalid : ∀ t ∈ (tokenize ⟨Position.advance {} first, text⟩).1, t.error? = none)
    {t : Token} (ht : t ∈ (tokenize ⟨Position.advance {} first, text⟩).1)
    {front piece rest : List Char} (hsplit : first ++ text = front ++ (piece ++ rest))
    (hstands : Stands front piece t) :
    ∃ before, front ++ piece = first ++ before ∧ Spells (before ++ (filler ++ rest))
      ((tokenize ⟨Position.advance {} first, text⟩).1.map Token.bare) := by
  induction hlen : text.length using Nat.strongRecOn generalizing first text with
  | ind n ih =>
    rcases tokenize_valid hvalid with ⟨hnil, _⟩ |
      ⟨gap, word, rest', kind, rfl, hne, hgap, hshape, hkind, hapart, htok⟩
    · rw [hnil] at ht
      cases ht
    · have hplace : Position.advance {} (first ++ (gap ++ word)) =
          (Position.advance {} first).advance (gap ++ word) := Position.advance_append ..
      rw [htok] at hvalid ht ⊢
      rw [← hplace] at hvalid ht ⊢
      obtain ⟨_, hvalid'⟩ := List.forall_mem_cons.mp hvalid
      rw [List.map_cons, bare_ofText hkind]
      rcases List.mem_cons.mp ht with rfl | ht
      · -- the first token is the one, and filler comes in front of all others
        have hfirst := stands_ofText kind (first ++ gap) word
        rw [Position.advance_append] at hfirst
        obtain ⟨rfl, rfl, rfl⟩ := hstands.unique hfirst
          (hsplit.symm.trans (List.append_assoc ..).symm)
        refine ⟨gap ++ piece, List.append_assoc .., ?_⟩
        rw [List.append_assoc]
        exact .token hgap hshape hkind (hfiller.apart [] hapart)
          (.filler hfiller (spells_tokenize hvalid'))
      · have hlt : rest'.length < n := by
          have := List.length_pos_iff.mpr hne
          simp only [← hlen, List.length_append]
          omega
        obtain ⟨before, hbefore, hspells⟩ :=
          ih _ hlt _ hvalid' ht (by rw [← hsplit]; simp) rfl
        have hrest : rest' = before ++ rest := by
          rw [← List.append_assoc front, hbefore] at hsplit
          simpa using hsplit
        refine ⟨gap ++ word ++ before, by rw [hbefore]; simp, ?_⟩
        rw [List.append_assoc, List.append_assoc]
        exact .token hgap hshape hkind (hfiller.apart before (hrest ▸ hapart)) hspells

theorem Seam.spells {source : String} {before rest filler : List Char}
    (h : Seam source before rest) (hfiller : Filler filler)
    (hvalid : ∀ t ∈ (tokenize (.ofText source)).1, t.error? = none) :
    Spells (before ++ (filler ++ rest)) ((tokenize (.ofText source)).1.map Token.bare) := by
  cases h with
  | start =>
    rw [List.nil_append]
    exact .filler hfiller (spells_tokenize hvalid)
  | behind ht hsplit hstands =>
    obtain ⟨before, hbefore, hspells⟩ := spells_behind hfiller [] hvalid ht hsplit hstands
    rw [hbefore]
    exact hspells

/-! ## The finishing token -/

theorem bare_finish (cursor : Cursor) : (tokenize cursor).2.bare = ⟨.finish, "", {}⟩ := by
  fun_induction tokenize cursor with
  | case1 cursor hkind =>
    obtain ⟨p, text⟩ := cursor
    have hscanned := scanned_scan p text
    generalize scan ⟨p, text⟩ = result at hkind hscanned
    cases hscanned with
    | finish text => rfl
    | @cut gap c cs _ => exact absurd hkind (cut_kind_ne_finish c cs)
    | openComment _ => cases hkind
  | case2 cursor hkind tokens finish htok ih =>
    rw [htok] at ih
    exact ih

/-- Filler goes unnoticed. Put blanks and complete comments into a text without malformed tokens, at
its start or right behind a token. Then there are the same tokens with the same lexemes, the same
schedule is read, in the same order, and the same errors are reported in the same order. -/
theorem filler_unnoticed {source padded : String} {before rest filler : List Char}
    (hvalid : ∀ t ∈ (tokenize (.ofText source)).1, t.error? = none)
    (hseam : Seam source before rest) (hfiller : Filler filler)
    (hpadded : padded.toList = before ++ (filler ++ rest)) :
    (tokenize (.ofText padded)).1.map Token.bare = (tokenize (.ofText source)).1.map Token.bare ∧
    (tokenize (.ofText padded)).2.bare = (tokenize (.ofText source)).2.bare ∧
    (read padded).1.same (read source).1 = true ∧
    (read padded).1.bare = (read source).1.bare ∧
    (read padded).2.map SyntaxError.bare = (read source).2.map SyntaxError.bare := by
  have htokens : (tokenize (.ofText padded)).1.map Token.bare =
      (tokenize (.ofText source)).1.map Token.bare := by
    rw [Cursor.ofText, hpadded]
    exact tokenize_spelled (hseam.spells hfiller hvalid) _
  have hfinish : (tokenize (.ofText padded)).2.bare = (tokenize (.ofText source)).2.bare := by
    rw [bare_finish, bare_finish]
  obtain ⟨hschedule, herrors⟩ := read_congr hvalid htokens hfinish
  exact ⟨htokens, hfinish, same_of_bare hschedule, hschedule, herrors⟩

/-- A broken entry, a value that looks like a comment, and a comment that the text ends in. -/
def denseText : String := "a=b:c d;attrib k(n=\"/*\");// end"

/-- The same with a wide blank and two comments behind the value. -/
def looseText : String := "a=b:c d;attrib k(n=\"/*\"\u3000/* // **/// */\n);// end"

theorem seam_denseText :
    Seam denseText "a=b:c d;attrib k(n=\"/*\"".toList ");// end".toList := by
  have hmem : ⟨.string, "\"/*\"", ⟨1, 20, 4⟩⟩ ∈ (tokenize (.ofText denseText)).1 := by
    decide +kernel
  have hstands : Stands "a=b:c d;attrib k(n=".toList "\"/*\"".toList
      ⟨.string, "\"/*\"", ⟨1, 20, 4⟩⟩ :=
    ⟨by decide, by decide +kernel, by decide +kernel, fun _ => by decide⟩
  exact .behind hmem (by decide) hstands

theorem filler_looseText : Filler "\u3000/* // **/// */\n".toList :=
  .blank (by decide) (@Filler.block " // *".toList _ (by decide)
    (@Filler.line " */".toList _ (by decide) .nil))

theorem filler_unnoticed_looseText :
    (∀ t ∈ (tokenize (.ofText denseText)).1, t.error? = none) ∧
    Seam denseText "a=b:c d;attrib k(n=\"/*\"".toList ");// end".toList ∧
    Filler "\u3000/* // **/// */\n".toList ∧
    (tokenize (.ofText looseText)).1.map Token.bare =
      (tokenize (.ofText denseText)).1.map Token.bare ∧
    (read looseText).1.same (read denseText).1 = true ∧
    (read looseText).2.map SyntaxError.bare = (read denseText).2.map SyntaxError.bare := by
  have hvalid : ∀ t ∈ (tokenize (.ofText denseText)).1, t.error? = none := by decide +kernel
  have hpadded : looseText.toList = "a=b:c d;attrib k(n=\"/*\"".toList ++
      ("\u3000/* // **/// */\n".toList ++ ");// end".toList) := by decide
  have h := filler_unnoticed hvalid seam_denseText filler_looseText hpadded
  exact ⟨hvalid, seam_denseText, filler_looseText, h.1, h.2.2.1, h.2.2.2.2⟩

end ShaderVariants.Schedule
