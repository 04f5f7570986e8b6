import ShaderVariants.Proofs.Progress
import ShaderVariants.Proofs.Reports
import ShaderVariants.Proofs.RoundTrip

/-! # Reading does not look at places

Tokens carry the places where they stand, and what is read from them carries those on. Reading
tokens whose places are forgotten gives what reading the tokens gives, with its places forgotten: a
reader mirrors itself (`Mirrors`), and so does every turn of reading entries (`readEntries_bare`).

Places matter once, when errors are sorted. But tokens stand in the order of the text
(`pairwise_tokens`), and where none is malformed the errors come in the order of the tokens, so that
sorting leaves them alone (`read_errors_of_valid`). Texts that differ only in where their tokens
stand therefore read alike (`read_congr`). -/
namespace ShaderVariants

/-! ## Equality but for places -/

/-- Maps agree if their values do, whatever of a value is not looked at. -/
theorem OrderedMap.agrees_of_map {κ α β : Type} [DecidableEq κ] {same : α → α → Bool} {f : α → β}
    (hsame : ∀ a b, f a = f b → same a b = true) {m n : OrderedMap κ α} (h : m.map f = n.map f) :
    m.agrees same n = true := by
  have hsize : m.size = n.size := by
    have hlen := congrArg size h
    simpa [size, OrderedMap.map] using hlen
  rw [agrees, Bool.and_eq_true, beq_iff_eq, List.all_eq_true]
  refine ⟨hsize, fun e he => ?_⟩
  have hfound : m.find? e.1 = some e.2 := find?_eq_some_iff.mpr he
  have hother : (n.find? e.1).map f = some (f e.2) := by
    rw [← find?_map, ← h, find?_map, hfound]
    rfl
  obtain ⟨v, hv, hfv⟩ := Option.map_eq_some_iff.mp hother
  rw [hv]
  exact hsame _ _ hfv.symm

theorem Selection.all_same_of_bare {a b : List Selection}
    (h : a.map Selection.bare = b.map Selection.bare) :
    (a.length == b.length && (a.zip b).all fun p => p.1.same p.2) = true := by
  induction a generalizing b with
  | nil =>
    obtain rfl : b = [] := List.map_eq_nil_iff.mp h.symm
    rfl
  | cons s a ih =>
    obtain ⟨t, b, rfl, ht, hb⟩ := List.map_eq_cons_iff.mp h.symm
    have hs : s.same t = true := by
      rw [Selection.same, Bool.and_eq_true, beq_iff_eq, beq_iff_eq]
      exact ⟨(congrArg Selection.world ht).symm, (congrArg Selection.alternate ht).symm⟩
    have hrest := ih hb.symm
    simp only [Bool.and_eq_true, beq_iff_eq] at hrest
    simp [hs, hrest.1, hrest.2]

theorem Schedule.same_of_bare {s t : Schedule} (h : s.bare = t.bare) : s.same t = true := by
  have hchoices : s.choices.map (·.map Selection.bare) = t.choices.map (·.map Selection.bare) :=
    congrArg Schedule.choices h
  have hattributes : s.bare.attributes.map id = t.bare.attributes.map id := by rw [h]
  rw [Schedule.same, Bool.and_eq_true]
  refine ⟨OrderedMap.agrees_of_map (fun _ _ => Selection.all_same_of_bare) hchoices,
    OrderedMap.agrees_of_map (fun a b hab => ?_) hattributes⟩
  exact OrderedMap.agrees_of_map (fun _ _ => beq_iff_eq.mpr) (congrArg (OrderedMap.map · id) hab)

namespace Schedule

/-! ## Forgetting places -/

def Token.bare (t : Token) : Token := { t with span := {} }

def SyntaxError.bare (e : SyntaxError) : SyntaxError := { e with span := {} }

def Missing.bare (m : Missing) : Missing := { m with rest := m.rest.map Token.bare }

/-- What reading an entry came to, without places. -/
def bareOutcome : Except Missing Entry → Except Missing Entry
  | .ok entry => .ok entry.bare
  | .error missing => .error missing.bare

namespace Reader
variable {α β : Type} {r r' : Reader α} {f : α → α} {g : β → β}

/-- On bare tokens the second reader does what the first one does. -/
def Mirrors (r r' : Reader α) (f : α → α) : Prop := ∀ tokens,
  r' (tokens.map Token.bare) =
    match r tokens with
    | .ok (a, rest) => .ok (f a, rest.map Token.bare)
    | .error missing => .error missing.bare

theorem mirrors_pure {a a' : α} (h : a' = f a) : Mirrors (pure a) (pure a') f := by
  intro tokens
  rw [h]
  rfl

theorem Mirrors.bind {k k' : α → Reader β} (hr : Mirrors r r' f)
    (hk : ∀ a, Mirrors (k a) (k' (f a)) g) : Mirrors (r >>= k) (r' >>= k') g := by
  intro tokens
  have hfirst := hr tokens
  cases hc : r tokens with
  | error missing =>
    simp only [hc] at hfirst
    rw [bind_error hc, bind_error hfirst]
  | ok p =>
    simp only [hc] at hfirst
    rw [bind_ok hc, bind_ok hfirst]
    exact hk p.1 p.2

theorem mirrors_token {accept : Token → Bool} (h : ∀ t, accept t.bare = accept t)
    (expected : String) : Mirrors (token accept expected) (token accept expected) Token.bare := by
  intro tokens
  cases tokens with
  | nil => rfl
  | cons t rest =>
    rw [List.map_cons, token, token, h]
    split <;> rfl

theorem mirrors_kind (k : Token.Kind) (expected : String) :
    Mirrors (kind k expected) (kind k expected) Token.bare :=
  mirrors_token (fun _ => rfl) expected

theorem mirrors_name (expected : String) : Mirrors (name expected) (name expected) id := by
  show Mirrors (token Token.isName expected >>= fun t => pure t.lexeme)
    (token Token.isName expected >>= fun t => pure t.lexeme) id
  exact (mirrors_token (fun _ => rfl) expected).bind fun _ => mirrors_pure rfl

theorem mirrors_nextIs (k : Token.Kind) : Mirrors (nextIs k) (nextIs k) id := by
  intro tokens
  cases tokens <;> rfl

theorem mirrors_more {separator : Token.Kind} (hr : Mirrors r r' f) :
    Mirrors (more separator r) (more separator r') (List.map f) := by
  intro tokens
  fun_induction more separator r tokens with
  | case1 =>
    rw [List.map_nil, more]
    rfl
  | case2 t rest ht missing hc =>
    have h := hr rest
    simp only [hc] at h
    exact more_error ht h
  | case3 t rest ht a rest' hc hle missing hm ih =>
    have h := hr rest
    simp only [hc] at h
    simp only [hm] at ih
    rw [List.map_cons, more, if_pos (show t.bare.kind = separator from ht), h]
    simp only [List.length_map, if_pos hle, ih]
  | case4 t rest ht a rest' hc hle as rest'' hm ih =>
    have h := hr rest
    simp only [hc] at h
    simp only [hm] at ih
    rw [List.map_cons, more, if_pos (show t.bare.kind = separator from ht), h]
    simp only [List.length_map, if_pos hle, ih, List.map_cons]
  | case5 t rest ht a rest' hc hle =>
    have h := hr rest
    simp only [hc] at h
    rw [List.map_cons, more, if_pos (show t.bare.kind = separator from ht), h]
    simp only [List.length_map, if_neg hle, List.map_cons, List.map_nil]
  | case6 t rest ht =>
    rw [List.map_cons, more, if_neg (show ¬ t.bare.kind = separator from ht)]
    rfl

end Reader

namespace Entry
open Reader

theorem mirrors_readChoice : Mirrors readChoice readChoice id :=
  (mirrors_name _).bind fun _ => (mirrors_more (mirrors_name _)).bind fun others =>
    mirrors_pure (by rw [List.map_id]; rfl)

theorem mirrors_readSelection : Mirrors readSelection readSelection Selection.bare := by
  refine (mirrors_token (fun _ => rfl) _).bind fun world => (mirrors_nextIs _).bind fun colon => ?_
  cases colon with
  | true =>
    exact (mirrors_kind _ _).bind fun _ => (mirrors_token (fun _ => rfl) _).bind fun _ =>
      mirrors_pure rfl
  | false => exact mirrors_pure rfl

theorem mirrors_readAttribute : Mirrors readAttribute readAttribute id :=
  (mirrors_name _).bind fun _ => (mirrors_kind _ _).bind fun _ => (mirrors_kind _ _).bind fun _ =>
    mirrors_pure rfl

theorem mirrors_readAttributeList : Mirrors readAttributeList readAttributeList id := by
  refine (mirrors_nextIs _).bind fun closed => ?_
  cases closed with
  | true => exact mirrors_pure rfl
  | false =>
    exact mirrors_readAttribute.bind fun first => (mirrors_more mirrors_readAttribute).bind
      fun others => mirrors_pure (by rw [List.map_id]; rfl)

theorem mirrors_readSelections : Mirrors readSelections readSelections Entry.bare :=
  mirrors_readChoice.bind fun _ => (mirrors_kind _ _).bind fun _ => mirrors_readSelection.bind
    fun _ => (mirrors_more mirrors_readSelection).bind fun _ => (mirrors_kind _ _).bind fun _ =>
      mirrors_pure rfl

theorem mirrors_readAttributes : Mirrors readAttributes readAttributes Entry.bare :=
  (mirrors_kind _ _).bind fun _ => mirrors_readChoice.bind fun _ => (mirrors_kind _ _).bind fun _ =>
    mirrors_readAttributeList.bind fun _ => (mirrors_kind _ _).bind fun _ =>
      (mirrors_kind _ _).bind fun _ => mirrors_pure rfl

theorem startsAttributes_bare (tokens : List Token) :
    startsAttributes (tokens.map Token.bare) = startsAttributes tokens := by
  match tokens with
  | [] => rfl
  | [_] => rfl
  | _ :: _ :: _ => rfl

theorem mirrors_read : Mirrors read read Entry.bare := by
  intro tokens
  unfold read
  rw [startsAttributes_bare]
  split
  · exact mirrors_readAttributes tokens
  · exact mirrors_readSelections tokens

end Entry

/-! ## Entries and errors -/

theorem skipEntry_bare (tokens : List Token) :
    skipEntry (tokens.map Token.bare) = (skipEntry tokens).map Token.bare := by
  rw [skipEntry, skipEntry, List.dropWhile_map, List.map_tail]
  rfl

theorem turn_bare (tokens : List Token) : turn (tokens.map Token.bare) =
    (bareOutcome (turn tokens).1, (turn tokens).2.map Token.bare) := by
  have hread := Entry.mirrors_read tokens
  unfold turn
  cases hc : Entry.read tokens with
  | ok p =>
    simp only [hc] at hread
    rw [hread]
    rfl
  | error missing =>
    simp only [hc] at hread
    rw [hread]
    exact congrArg (Prod.mk _) (skipEntry_bare missing.rest)

theorem readEntries_bare (tokens : List Token) :
    readEntries (tokens.map Token.bare) = (readEntries tokens).map bareOutcome := by
  induction hlen : tokens.length using Nat.strongRecOn generalizing tokens with
  | ind n ih =>
    cases tokens with
    | nil =>
      rw [List.map_nil, readEntries]
      rfl
    | cons t ts =>
      have hrest := ih _ (hlen ▸ length_turn_lt t ts) _ rfl
      have hturn := turn_bare (t :: ts)
      rw [List.map_cons] at hturn ⊢
      rw [readEntries_cons, readEntries_cons, hturn, List.map_cons, hrest]

theorem broken?_bare (finish : Token) (outcome : Except Missing Entry) :
    broken? finish.bare (bareOutcome outcome) = (broken? finish outcome).map SyntaxError.bare := by
  cases outcome with
  | ok entry => rfl
  | error missing =>
    obtain ⟨expected, rest⟩ := missing
    cases rest with
    | nil => rfl
    | cons t rest =>
      obtain ⟨kind, lexeme, span⟩ := t
      cases kind <;> rfl

theorem complete_bare (outcomes : List (Except Missing Entry)) :
    (outcomes.map bareOutcome).filterMap Except.toOption =
      (outcomes.filterMap Except.toOption).map Entry.bare := by
  rw [List.filterMap_map, List.map_filterMap]
  congr 1
  funext outcome
  cases outcome <;> rfl

/-! ## The order of the text -/

/-- Not later in the text. -/
def InOrder (a b : Span) : Prop := a.line < b.line ∨ a.line = b.line ∧ a.col ≤ b.col

theorem InOrder.trans {a b c : Span} (hab : InOrder a b) (hbc : InOrder b c) : InOrder a c := by
  unfold InOrder at *
  omega

/-- Text moves a position to a later line, or by a column at least for each character. -/
theorem Position.le_advance (p : Position) (text : List Char) : p.line < (p.advance text).line ∨
    p.line = (p.advance text).line ∧ p.col + text.length ≤ (p.advance text).col := by
  induction text generalizing p with
  | nil => exact .inr ⟨rfl, Nat.le_refl _⟩
  | cons c text ih =>
    have hrest := ih (p.step c)
    show p.line < ((p.step c).advance text).line ∨ p.line = ((p.step c).advance text).line ∧
      p.col + (c :: text).length ≤ ((p.step c).advance text).col
    rw [List.length_cons]
    by_cases hc : c = '\n'
    · have hstep : (p.step c).line = p.line + 1 := by rw [step, if_pos hc]
      omega
    · have hline : (p.step c).line = p.line := by rw [step, if_neg hc]
      have hcol : (p.step c).col = p.col + c.utf8Size := by rw [step, if_neg hc]
      have hsize := c.utf8Size_pos
      omega

theorem Position.inOrder_advance (p : Position) (text a b : List Char) :
    InOrder (p.span a) ((p.advance text).span b) := by
  have h := p.le_advance text
  show p.line < (p.advance text).line ∨ p.line = (p.advance text).line ∧
    p.col ≤ (p.advance text).col
  omega

theorem scan_inOrder (cursor : Cursor) :
    InOrder (cursor.position.span []) (scan cursor).1.span ∧
      InOrder (scan cursor).1.span ((scan cursor).2.position.span []) := by
  obtain ⟨p, text⟩ := cursor
  have hscanned := scanned_scan p text
  generalize scan ⟨p, text⟩ = result at hscanned
  cases hscanned with
  | finish text => exact ⟨p.inOrder_advance text _ _, (p.advance text).inOrder_advance [] _ _⟩
  | @cut gap c cs hgap =>
    refine ⟨p.inOrder_advance gap _ _, ?_⟩
    rw [Position.advance_append]
    exact (p.advance gap).inOrder_advance _ _ _
  | @openComment gap body hgap =>
    refine ⟨p.inOrder_advance gap _ _, ?_⟩
    rw [Position.advance_append]
    exact (p.advance gap).inOrder_advance _ _ _

/-- The tokens of a text stand one behind the other, the finishing one last. -/
theorem pairwise_tokens (cursor : Cursor) :
    ((tokenize cursor).1 ++ [(tokenize cursor).2]).Pairwise (InOrder ·.span ·.span) ∧
      ∀ t ∈ (tokenize cursor).1 ++ [(tokenize cursor).2],
        InOrder (cursor.position.span []) t.span := by
  fun_induction tokenize cursor with
  | case1 cursor hkind =>
    exact ⟨List.pairwise_singleton _ _, List.forall_mem_singleton.mpr (scan_inOrder cursor).1⟩
  | case2 cursor hkind tokens finish htok ih =>
    rw [htok] at ih
    obtain ⟨hbefore, hbehind⟩ := scan_inOrder cursor
    have hlater : ∀ t ∈ tokens ++ [finish], InOrder (scan cursor).1.span t.span :=
      fun t ht => hbehind.trans (ih.2 t ht)
    exact ⟨List.pairwise_cons.mpr ⟨hlater, ih.1⟩,
      List.forall_mem_cons.mpr ⟨hbefore, fun t ht => hbefore.trans (hlater t ht)⟩⟩

/-- The errors of the entries of a text. -/
def entryErrors (finish : Token) (tokens : List Token) : List SyntaxError :=
  (readEntries tokens).filterMap (broken? finish)

/-- An error stands at the token at which its entry breaks, and what is read next stands behind that
token. -/
theorem turn_error {finish : Token} {tokens : List Token} {e : SyntaxError}
    (h : broken? finish (turn tokens).1 = some e) : ∃ t front rest,
      tokens ++ [finish] = front ++ t :: rest ∧ e.span = t.span ∧
        ((turn tokens).2 = [] ∨ (turn tokens).2 ++ [finish] <:+ rest) := by
  have hderives := Entry.derives_read tokens
  unfold turn at h ⊢
  cases hread : Entry.read tokens with
  | ok p => simp [hread, broken?] at h
  | error missing =>
    simp only [hread, broken?] at h hderives ⊢
    obtain ⟨us, rfl, _⟩ := hderives
    cases hrest : missing.rest with
    | nil =>
      rw [Missing.error?, hrest] at h
      cases h
      exact ⟨finish, us, [], by simp, rfl, .inl rfl⟩
    | cons t rest =>
      rw [Missing.error?, hrest] at h
      have hspan : e.span = t.span := by
        dsimp only at h
        split at h
        · cases h
        · cases h
          rfl
      obtain ⟨passed, hpassed, hne⟩ := skipEntry_passes (t :: rest)
      obtain ⟨u, passed, rfl⟩ := List.exists_cons_of_ne_nil (hne (List.cons_ne_nil t rest))
      rw [List.cons_append] at hpassed
      obtain ⟨rfl, htail⟩ := List.cons.inj hpassed
      refine ⟨t, us, rest ++ [finish], by simp, hspan, .inr ⟨passed, ?_⟩⟩
      rw [← List.append_assoc, ← htail]

/-- The errors of entries stand where tokens do, and in the same order. -/
theorem pairwise_entryErrors {finish : Token} {tokens : List Token}
    (h : (tokens ++ [finish]).Pairwise (InOrder ·.span ·.span)) :
    (entryErrors finish tokens).Pairwise (InOrder ·.span ·.span) ∧
      ∀ e ∈ entryErrors finish tokens, ∃ t ∈ tokens ++ [finish], e.span = t.span := by
  induction hlen : tokens.length using Nat.strongRecOn generalizing tokens with
  | ind n ih =>
    cases tokens with
    | nil =>
      rw [entryErrors, readEntries]
      exact ⟨.nil, by simp⟩
    | cons t ts =>
      obtain ⟨taken, _, htaken⟩ := turn_takes t ts
      have hsub : (turn (t :: ts)).2 ++ [finish] <:+ t :: ts ++ [finish] :=
        ⟨taken, by rw [← List.append_assoc, ← htaken]⟩
      obtain ⟨hpairs, hspans⟩ := ih _ (hlen ▸ length_turn_lt t ts) (h.sublist hsub.sublist) rfl
      have hrest : ∀ e ∈ entryErrors finish (turn (t :: ts)).2,
          ∃ u ∈ t :: ts ++ [finish], e.span = u.span := by
        intro e he
        obtain ⟨u, hu, hspan⟩ := hspans e he
        exact ⟨u, hsub.subset hu, hspan⟩
      rw [entryErrors, readEntries_cons]
      cases hbroken : broken? finish (turn (t :: ts)).1 with
      | none =>
        rw [List.filterMap_cons_none hbroken]
        exact ⟨hpairs, hrest⟩
      | some e =>
        obtain ⟨u, front, behind, hsplit, hspan, hnext⟩ := turn_error hbroken
        rw [List.filterMap_cons_some hbroken]
        refine ⟨List.pairwise_cons.mpr ⟨fun e' he' => ?_, hpairs⟩,
          List.forall_mem_cons.mpr ⟨⟨u, hsplit ▸ by simp, hspan⟩, hrest⟩⟩
        obtain ⟨v, hv, hspan'⟩ := hspans e' he'
        rw [hspan, hspan']
        rcases hnext with hnil | hbehind
        · -- no token is left, so there are no more errors
          rw [hnil, readEntries] at he'
          cases he'
        · rw [hsplit] at h
          exact List.rel_of_pairwise_cons (List.pairwise_append.mp h).2.1 (hbehind.subset hv)

/-! ## Texts that differ in places only -/

/-- Where no token is malformed, sorting the errors changes nothing. -/
theorem read_errors_of_valid {source : String}
    (h : ∀ t ∈ (tokenize (.ofText source)).1, t.error? = none) :
    (read source).2 =
      entryErrors (tokenize (.ofText source)).2 (tokenize (.ofText source)).1 := by
  have hnone : (tokenize (.ofText source)).1.filterMap Token.error? = [] :=
    List.filterMap_eq_nil_iff.mpr h
  rw [read_errors, hnone, List.nil_append, List.filterMap_map]
  refine List.mergeSort_of_pairwise ?_
  exact (pairwise_entryErrors (pairwise_tokens _).1).1.imp notAfter_iff.mpr

theorem bare_read (source : String) : (read source).1.bare =
    ((readEntries ((tokenize (.ofText source)).1.map Token.bare)).filterMap
      Except.toOption).foldl add {} := by
  rw [readEntries_bare, complete_bare]
  exact bare_foldl_add _ {}

theorem bare_entryErrors (finish : Token) (tokens : List Token) :
    (entryErrors finish tokens).map SyntaxError.bare =
      entryErrors finish.bare (tokens.map Token.bare) := by
  rw [entryErrors, entryErrors, readEntries_bare, List.filterMap_map, List.map_filterMap]
  congr 1
  funext outcome
  exact (broken?_bare finish outcome).symm

theorem error?_bare (t : Token) : t.bare.error? = t.error?.map SyntaxError.bare := by
  obtain ⟨kind, lexeme, span⟩ := t
  cases kind <;> rfl

/-- Texts with the same tokens, wherever these stand, read as the same schedule in the same order,
and report the same errors in the same order. -/
theorem read_congr {source source' : String}
    (hvalid : ∀ t ∈ (tokenize (.ofText source)).1, t.error? = none)
    (htokens : (tokenize (.ofText source')).1.map Token.bare =
      (tokenize (.ofText source)).1.map Token.bare)
    (hfinish : (tokenize (.ofText source')).2.bare = (tokenize (.ofText source)).2.bare) :
    (read source').1.bare = (read source).1.bare ∧
      (read source').2.map SyntaxError.bare = (read source).2.map SyntaxError.bare := by
  have hvalid' : ∀ t ∈ (tokenize (.ofText source')).1, t.error? = none := by
    intro t ht
    have hmem : t.bare ∈ (tokenize (.ofText source)).1.map Token.bare :=
      htokens ▸ List.mem_map_of_mem ht
    obtain ⟨u, hu, hbare⟩ := List.mem_map.mp hmem
    have herror := error?_bare u
    rw [hbare, hvalid u hu, error?_bare] at herror
    exact Option.map_eq_none_iff.mp herror
  refine ⟨by rw [bare_read, bare_read, htokens], ?_⟩
  rw [read_errors_of_valid hvalid, read_errors_of_valid hvalid', bare_entryErrors,
    bare_entryErrors, htokens, hfinish]

end Schedule

end ShaderVariants
