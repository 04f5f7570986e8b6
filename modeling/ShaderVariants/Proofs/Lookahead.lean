import Mathlib.Logic.Function.Iterate
import ShaderVariants.Proofs.Scanning
import ShaderVariants.Schedule.TokenBuffer

/-! # Looking ahead goes unnoticed

A plain scan of a text gives a sequence of tokens, with the finishing token from the end on for
ever (`tokenAt`). A token buffer is asked for tokens, looks ahead and hands out errors in any order;
all of it happens against the one sequence. A buffer keeps track of two places in it (`Tracks`): the
next token to be taken and the next one to be scanned. What lies between is held ready, and every
error before the second place has been recorded once. Each request moves the places forward, so the
same is true after any history of requests (`buffer_serves_scan`). -/
namespace ShaderVariants.Schedule

/-! ## The tokens of a text as a sequence -/

/-- The token with the number `k`, counted from 0. -/
def tokenAt (start : Cursor) (k : Nat) : Token := (tokenize start).1.getD k (tokenize start).2

/-- Where the scan stands in front of the token with the number `k`. -/
def cursorAt (start : Cursor) (k : Nat) : Cursor := (fun cursor => (scan cursor).2)^[k] start

theorem cursorAt_succ (start : Cursor) (k : Nat) :
    cursorAt start (k + 1) = (scan (cursorAt start k)).2 :=
  Function.iterate_succ_apply' _ k start

/-- At the end of the text scanning stays where it is. -/
theorem scan_again {cursor : Cursor} (h : (scan cursor).1.kind = .finish) :
    scan (scan cursor).2 = scan cursor := by
  unfold scan at h ⊢
  split at h
  · cases h
  · rfl
  · rename_i p c cs _
    exact absurd h (cut_kind_ne_finish c cs)

theorem tokenAt_zero (start : Cursor) : tokenAt start 0 = (scan start).1 := by
  unfold tokenAt
  rw [tokenize]
  split <;> rfl

theorem tokenAt_succ (start : Cursor) (k : Nat) :
    tokenAt start (k + 1) = tokenAt (scan start).2 k := by
  by_cases h : (scan start).1.kind = .finish
  · have hagain : (scan (scan start).2).1.kind = .finish := by
      rw [scan_again h]
      exact h
    rw [tokenAt, tokenAt, tokenize_of_finish h, tokenize_of_finish hagain, scan_again h]
    rfl
  · rw [tokenAt, tokenize, if_neg h]
    rfl

theorem scan_cursorAt (start : Cursor) (k : Nat) :
    (scan (cursorAt start k)).1 = tokenAt start k := by
  induction k generalizing start with
  | zero => exact (tokenAt_zero start).symm
  | succ k ih => exact (ih (scan start).2).trans (tokenAt_succ start k).symm

/-- The errors of the first `n` tokens. -/
def errorsBefore (start : Cursor) (n : Nat) : List SyntaxError :=
  ((List.range n).map (tokenAt start)).filterMap Token.error?

theorem errorsBefore_succ (start : Cursor) (n : Nat) :
    errorsBefore start (n + 1) = errorsBefore start n ++ (tokenAt start n).error?.toList := by
  rw [errorsBefore, List.range_succ, List.map_append, List.filterMap_append]
  cases h : (tokenAt start n).error? <;> simp [errorsBefore, h]

/-! ## Requests -/

/-- What a token buffer can be asked for. -/
inductive Request where
  | next
  | peek
  | peekAt (n : Nat)
  | takeErrors
deriving DecidableEq

namespace Request

/-- The buffer after a request. -/
def after : Request → TokenBuffer → TokenBuffer
  | next, b => b.next.2
  | peek, b => b.peek.2
  | peekAt n, b => (b.peekAt n).2
  | takeErrors, b => b.takeErrors.2

/-- The errors that a request hands out. -/
def errors : Request → TokenBuffer → List SyntaxError
  | takeErrors, b => b.takeErrors.1
  | _, _ => []

/-- The number of tokens that have been taken or looked at, if so many were taken before. -/
def reach (taken : Nat) : List Request → Nat
  | [] => taken
  | next :: requests => reach (taken + 1) requests
  | peek :: requests => max (taken + 1) (reach taken requests)
  | peekAt n :: requests => max (taken + n + 1) (reach taken requests)
  | takeErrors :: requests => reach taken requests

theorem le_reach (taken : Nat) (requests : List Request) : taken ≤ reach taken requests := by
  fun_induction reach taken requests <;> omega

theorem reach_cons (taken : Nat) (request : Request) (requests : List Request) :
    reach taken (request :: requests) =
      max (reach taken [request]) (reach (taken + [request].count .next) requests) := by
  have hle := le_reach (taken + [request].count .next) requests
  cases request <;> simp [reach] at hle ⊢ <;> omega

end Request

namespace TokenBuffer

/-- All errors that a history of requests hands out, and the buffer after it. -/
def serve : List Request → TokenBuffer → List SyntaxError × TokenBuffer
  | [], b => ([], b)
  | request :: requests, b =>
    let (errors, b') := serve requests (request.after b)
    (request.errors b ++ errors, b')

/-! ## What a buffer keeps track of -/

/-- A buffer over the scan from `start`, of which so many tokens were taken and so many scanned, and
which has handed out some errors. -/
structure Tracks (start : Cursor) (taken scanned : Nat) (handed : List SyntaxError)
    (b : TokenBuffer) : Prop where
  le : taken ≤ scanned
  cursor : b.cursor = cursorAt start scanned
  ahead : b.ahead = (List.range' taken (scanned - taken)).map (tokenAt start)
  errors : handed ++ b.errors = errorsBefore start scanned

variable {start : Cursor} {taken scanned : Nat} {handed : List SyntaxError} {b : TokenBuffer}

theorem tracks_ofCursor (start : Cursor) : Tracks start 0 0 [] { cursor := start } :=
  ⟨Nat.le_refl 0, rfl, rfl, rfl⟩

theorem Tracks.ahead_length (h : Tracks start taken scanned handed b) :
    b.ahead.length = scanned - taken := by
  rw [h.ahead, List.length_map, List.length_range']

theorem Tracks.fetch_token (h : Tracks start taken scanned handed b) :
    b.fetch.1 = tokenAt start scanned := by
  show (scan b.cursor).1 = _
  rw [h.cursor, scan_cursorAt]

theorem Tracks.fetch_cursor (h : Tracks start taken scanned handed b) :
    b.fetch.2.cursor = cursorAt start (scanned + 1) := by
  show (scan b.cursor).2 = _
  rw [h.cursor, cursorAt_succ]

/-- A token is recorded as it is scanned. -/
theorem Tracks.fetch_errors (h : Tracks start taken scanned handed b) :
    handed ++ b.fetch.2.errors = errorsBefore start (scanned + 1) := by
  show handed ++ (b.errors ++ b.fetch.1.error?.toList) = _
  rw [← List.append_assoc, h.errors, h.fetch_token, errorsBefore_succ]

/-- Scanning one more token into the buffer. -/
theorem Tracks.hold (h : Tracks start taken scanned handed b) :
    Tracks start taken (scanned + 1) handed
      { b.fetch.2 with ahead := b.ahead ++ [b.fetch.1] } where
  le := Nat.le_succ_of_le h.le
  cursor := h.fetch_cursor
  errors := h.fetch_errors
  ahead := by
    show b.ahead ++ [b.fetch.1] = _
    rw [Nat.succ_sub h.le, List.range'_1_concat, List.map_append, ← h.ahead,
      Nat.add_sub_cancel' h.le, h.fetch_token]
    rfl

theorem Tracks.fill (h : Tracks start taken scanned handed b) (n : Nat) :
    Tracks start taken (scanned + n) handed (b.fill n) := by
  induction n generalizing scanned b with
  | zero => exact h
  | succ n ih =>
    have hplace : scanned + (n + 1) = scanned + 1 + n := by omega
    rw [hplace]
    exact ih h.hold

theorem Tracks.next_token (h : Tracks start taken scanned handed b) :
    b.next.1 = tokenAt start taken := by
  have hahead := h.ahead
  unfold next
  cases hgap : scanned - taken with
  | zero =>
    have heq : scanned = taken := Nat.le_antisymm (Nat.le_of_sub_eq_zero hgap) h.le
    rw [hgap] at hahead
    rw [hahead]
    exact h.fetch_token.trans (by rw [heq])
  | succ gap =>
    rw [hgap] at hahead
    rw [hahead]
    rfl

theorem Tracks.next (h : Tracks start taken scanned handed b) :
    Tracks start (taken + 1) (max scanned (taken + 1)) handed b.next.2 := by
  have hle := h.le
  have hahead := h.ahead
  unfold TokenBuffer.next
  cases hgap : scanned - taken with
  | zero =>
    -- nothing is held ready, so the token is scanned now
    have heq : scanned = taken := by omega
    rw [hgap] at hahead
    rw [hahead, Nat.max_eq_right (by omega), ← heq]
    refine ⟨Nat.le_refl _, h.fetch_cursor, ?_, h.fetch_errors⟩
    rw [Nat.sub_self]
    exact hahead
  | succ gap =>
    rw [hgap] at hahead
    rw [hahead, Nat.max_eq_left (by omega)]
    refine ⟨by omega, h.cursor, ?_, h.errors⟩
    rw [show scanned - (taken + 1) = gap by omega]
    rfl

theorem Tracks.peekAt (h : Tracks start taken scanned handed b) (n : Nat) :
    Tracks start taken (max scanned (taken + n + 1)) handed (b.peekAt n).2 := by
  have hfill := h.fill (n + 1 - b.ahead.length)
  have hplace : scanned + (n + 1 - b.ahead.length) = max scanned (taken + n + 1) := by
    have := h.le
    rw [h.ahead_length]
    omega
  rw [hplace] at hfill
  exact hfill

theorem Tracks.peekAt_token (h : Tracks start taken scanned handed b) (n : Nat) :
    (b.peekAt n).1 = tokenAt start (taken + n) := by
  have hheld := (h.peekAt n).ahead
  have hlt : n < max scanned (taken + n + 1) - taken := by omega
  show (b.peekAt n).2.ahead.getD n _ = _
  rw [hheld, List.getD_eq_getElem?_getD, List.getElem?_map, List.getElem?_range' hlt]
  simp

theorem Tracks.takeErrors (h : Tracks start taken scanned handed b) :
    Tracks start taken scanned (handed ++ b.takeErrors.1) b.takeErrors.2 where
  le := h.le
  cursor := h.cursor
  ahead := h.ahead
  errors := (List.append_nil _).trans h.errors

/-- One request. -/
theorem Tracks.after (h : Tracks start taken scanned handed b) (request : Request) :
    Tracks start (taken + [request].count .next) (max scanned (Request.reach taken [request]))
      (handed ++ request.errors b) (request.after b) := by
  have hle := h.le
  cases request with
  | next =>
    have hhanded : handed ++ Request.errors .next b = handed := List.append_nil handed
    rw [hhanded]
    exact h.next
  | peek =>
    have hplace : max scanned (Request.reach taken [.peek]) = max scanned (taken + 0 + 1) := by
      simp only [Request.reach]
      omega
    have hhanded : handed ++ Request.errors .peek b = handed := List.append_nil handed
    rw [hplace, hhanded]
    exact h.peekAt 0
  | peekAt n =>
    have hplace : max scanned (Request.reach taken [.peekAt n]) = max scanned (taken + n + 1) := by
      simp only [Request.reach]
      omega
    have hhanded : handed ++ Request.errors (.peekAt n) b = handed := List.append_nil handed
    rw [hplace, hhanded]
    exact h.peekAt n
  | takeErrors =>
    have hplace : max scanned (Request.reach taken [.takeErrors]) = scanned := Nat.max_eq_left hle
    rw [hplace]
    exact h.takeErrors

/-- Any history of requests. -/
theorem Tracks.serve (requests : List Request) (h : Tracks start taken scanned handed b) :
    Tracks start (taken + requests.count .next) (max scanned (Request.reach taken requests))
      (handed ++ (b.serve requests).1) (b.serve requests).2 := by
  induction requests generalizing taken scanned handed b with
  | nil =>
    rw [Request.reach, Nat.max_eq_left h.le]
    exact (List.append_nil handed).symm ▸ h
  | cons request requests ih =>
    have hrest := ih (h.after request)
    rw [List.append_assoc, Nat.max_assoc, ← Request.reach_cons, Nat.add_assoc,
      ← List.count_append] at hrest
    exact hrest

/-- After any history of requests a buffer answers from the plain scan of its text: the next token
is the one whose number is that of the tokens taken so far, and looking `n` places ahead gives the
`n`-th one after it. The errors handed out so far, followed by those that wait, are the errors of
all tokens that have been taken or looked at, each once and in their order. -/
theorem buffer_serves_scan (source : String) (requests : List Request) :
    ((ofText source).serve requests).2.next.1 =
        tokenAt (.ofText source) (requests.count .next) ∧
      ((ofText source).serve requests).2.peek.1 =
        tokenAt (.ofText source) (requests.count .next) ∧
      (∀ n, (((ofText source).serve requests).2.peekAt n).1 =
        tokenAt (.ofText source) (requests.count .next + n)) ∧
      ((ofText source).serve requests).1 ++ ((ofText source).serve requests).2.errors =
        ((List.range (Request.reach 0 requests)).map (tokenAt (.ofText source))).filterMap
          Token.error? := by
  have h := (tracks_ofCursor (.ofText source)).serve requests
  rw [Nat.zero_add, Nat.zero_max] at h
  exact ⟨h.next_token, h.peekAt_token 0, h.peekAt_token, h.errors⟩

end TokenBuffer

end ShaderVariants.Schedule
