import Mathlib.Data.List.TakeWhile
import ShaderVariants.Indirection
import ShaderVariants.Proofs.Scanning

/-! # How a reference to an attribute is spelled

A spelling is two identifiers with their blanks, a percent sign in front and a dot between them. An
identifier has neither blanks nor dots in it, so that a text can be taken apart in one way at most
(`Spelling.eq_of_text`): the first dot divides the two words, and what trimming leaves of each half
is its identifier. Reading gives the identifiers of a text that is a spelling, and nothing for any
other (`parse?_exact`). -/
namespace ShaderVariants

namespace Text
open Schedule

/-! ## Identifiers -/

def IsLetter (c : Char) : Prop := ('A' ≤ c ∧ c ≤ 'Z') ∨ ('a' ≤ c ∧ c ≤ 'z') ∨ c = '_'

def IsDigit (c : Char) : Prop := '0' ≤ c ∧ c ≤ '9'

/-- A letter, and then letters and digits. -/
inductive Identifier : List Char → Prop
  | mk {c cs} : IsLetter c → (∀ d ∈ cs, IsLetter d ∨ IsDigit d) → Identifier (c :: cs)

theorem isWordStart_iff {c : Char} : isWordStart c = true ↔ IsLetter c := by
  have hranges : isWordStart c = ((decide (c.val ≥ 'A'.val ∧ c.val ≤ 'Z'.val) ||
      (decide (c.val ≥ 'a'.val) && decide (c.val ≤ 'z'.val))) || c == '_') := rfl
  rw [hranges]
  simp only [Bool.or_eq_true, Bool.and_eq_true, decide_eq_true_eq, beq_iff_eq, IsLetter,
    Char.le_def, ge_iff_le, or_assoc]

theorem isWordChar_iff {c : Char} : isWordChar c = true ↔ IsLetter c ∨ IsDigit c := by
  have hdigit : c.isDigit = true ↔ IsDigit c := by
    simp only [Char.isDigit, Bool.and_eq_true, decide_eq_true_eq, IsDigit, Char.le_def, ge_iff_le]
  rw [← isWordStart_iff, ← hdigit]
  simp only [isWordChar, Char.isAlphanum, isWordStart, Bool.or_eq_true]
  exact or_right_comm

theorem isWord_iff {w : List Char} : isWord w = true ↔ Identifier w := by
  cases w with
  | nil => exact iff_of_false (by decide) fun h => nomatch h
  | cons c cs =>
    rw [isWord, Bool.and_eq_true, isWordStart_iff, List.all_eq_true]
    simp only [isWordChar_iff]
    constructor
    · rintro ⟨hc, hcs⟩
      exact .mk hc hcs
    · rintro ⟨hc, hcs⟩
      exact ⟨hc, hcs⟩

theorem Identifier.isBlank_eq_false {w : List Char} (h : Identifier w) :
    ∀ c ∈ w, isBlank c = false :=
  fun c hc => isBlank_of_isWordChar (isWordChar_of_isWord (isWord_iff.mpr h) c hc)

/-! ## Words with blanks around them -/

structure PaddedWord where
  before : List Char
  word : List Char
  after : List Char
  before_blank : ∀ c ∈ before, isBlank c = true
  identifier : Identifier word
  after_blank : ∀ c ∈ after, isBlank c = true

namespace PaddedWord

def text (p : PaddedWord) : List Char := p.before ++ (p.word ++ p.after)

theorem takeWhile_word (p : PaddedWord) (rest : List Char) :
    (p.word ++ rest).takeWhile isBlank = [] := by
  have hword := p.identifier
  generalize p.word = w at hword
  cases hword with
  | @mk c cs hc hcs =>
    have hblank := (Identifier.mk hc hcs).isBlank_eq_false c List.mem_cons_self
    rw [List.cons_append, List.takeWhile_cons_of_neg (by simp [hblank])]

theorem takeWhile_text (p : PaddedWord) : p.text.takeWhile isBlank = p.before := by
  rw [text, List.takeWhile_append_of_pos p.before_blank, p.takeWhile_word, List.append_nil]

theorem trim_text (p : PaddedWord) : trim p.text = p.word := by
  have hstart : trimStart p.text = p.word ++ p.after := by
    have hsplit := List.takeWhile_append_dropWhile (p := isBlank) (l := p.text)
    rw [p.takeWhile_text] at hsplit
    exact List.append_cancel_left hsplit
  have hend : p.word.reverse.dropWhile isBlank = p.word.reverse := by
    rw [List.dropWhile_eq_self_iff]
    intro hlen
    have hmem := List.mem_reverse.mp (List.getElem_mem hlen)
    rw [p.identifier.isBlank_eq_false _ hmem]
    exact Bool.false_ne_true
  rw [trim, hstart, trimEnd, List.reverse_append, List.dropWhile_append_of_pos, hend,
    List.reverse_reverse]
  exact fun c hc => p.after_blank c (List.mem_reverse.mp hc)

theorem eq_of_text {p q : PaddedWord} (h : p.text = q.text) : p = q := by
  have hbefore : p.before = q.before := by rw [← p.takeWhile_text, h, q.takeWhile_text]
  have hword : p.word = q.word := by rw [← p.trim_text, h, q.trim_text]
  have hafter : p.after = q.after := by
    rw [text, text, hbefore, hword] at h
    exact List.append_cancel_left (List.append_cancel_left h)
  cases p
  cases q
  cases hbefore
  cases hword
  cases hafter
  rfl

/-- What trimming takes off are blanks. -/
theorem exists_of_trim {cs : List Char} (h : Identifier (trim cs)) :
    ∃ p : PaddedWord, p.text = cs ∧ p.word = trim cs := by
  have hblank : ∀ l : List Char, ∀ c ∈ l.takeWhile isBlank, isBlank c = true :=
    fun l c hc => List.mem_takeWhile_imp hc
  refine ⟨⟨cs.takeWhile isBlank, trim cs, ((trimStart cs).reverse.takeWhile isBlank).reverse,
    hblank cs, h, fun c hc => hblank _ c (List.mem_reverse.mp hc)⟩, ?_, rfl⟩
  show cs.takeWhile isBlank ++ (trim cs ++ ((trimStart cs).reverse.takeWhile isBlank).reverse) = cs
  rw [trim, trimEnd, ← List.reverse_append, List.takeWhile_append_dropWhile, List.reverse_reverse,
    trimStart, List.takeWhile_append_dropWhile]

theorem dot_not_mem_text (p : PaddedWord) : '.' ∉ p.text := by
  have hblank : ∀ l : List Char, (∀ c ∈ l, isBlank c = true) → '.' ∉ l := by
    intro l hl hmem
    exact absurd (hl '.' hmem) (by decide)
  have hword : '.' ∉ p.word := not_mem_of_isWord (isWord_iff.mpr p.identifier) (by decide)
  simp only [text, List.mem_append, not_or]
  exact ⟨hblank _ p.before_blank, hword, hblank _ p.after_blank⟩

end PaddedWord

end Text

namespace Indirection
open Text

/-! ## The two words of a reference -/

structure Spelling where
  component : PaddedWord
  key : PaddedWord

namespace Spelling

def text (s : Spelling) : String :=
  String.ofList ('%' :: (s.component.text ++ '.' :: s.key.text))

def indirection (s : Spelling) : Indirection :=
  ⟨String.ofList s.component.word, String.ofList s.key.word⟩

/-- The first dot of a spelling is the one between its words. -/
theorem split_dot (s : Spelling) :
    (s.component.text ++ '.' :: s.key.text).takeWhile (· != '.') = s.component.text ∧
      (s.component.text ++ '.' :: s.key.text).dropWhile (· != '.') = '.' :: s.key.text := by
  have hall : ∀ c ∈ s.component.text, (c != '.') = true := by
    intro c hc
    exact bne_iff_ne.mpr fun he => s.component.dot_not_mem_text (he ▸ hc)
  rw [List.takeWhile_append_of_pos hall, List.dropWhile_append_of_pos hall]
  simp

theorem eq_of_text {s t : Spelling} (h : s.text = t.text) : s = t := by
  have hlist := List.cons.inj (String.ofList_injective h)
  have hcomponent := s.split_dot.1
  have hkey := s.split_dot.2
  rw [hlist.2, t.split_dot.1] at hcomponent
  rw [hlist.2, t.split_dot.2] at hkey
  cases s
  cases t
  cases PaddedWord.eq_of_text hcomponent
  cases PaddedWord.eq_of_text (List.cons.inj hkey).2
  rfl

theorem parse?_text (s : Spelling) : parse? s.text = some s.indirection := by
  have hwords : (isWord s.component.word && isWord s.key.word) = true := by
    rw [Bool.and_eq_true, isWord_iff, isWord_iff]
    exact ⟨s.component.identifier, s.key.identifier⟩
  rw [parse?, text, String.toList_ofList]
  simp only [s.split_dot, PaddedWord.trim_text, hwords, if_true]
  rfl

end Spelling

/-- Whatever is read was spelled. -/
theorem exists_spelling {v : String} {r : Indirection} (h : parse? v = some r) :
    ∃ s : Spelling, s.text = v ∧ s.indirection = r := by
  unfold parse? at h
  split at h
  · rename_i cs hv
    split at h
    · cases h
    · rename_i c after hdrop
      dsimp only at h
      split at h
      · rename_i hwords
        simp only [Bool.and_eq_true, isWord_iff] at hwords
        obtain ⟨component, hcomponent, hc⟩ := PaddedWord.exists_of_trim hwords.1
        obtain ⟨key, hkey, hk⟩ := PaddedWord.exists_of_trim hwords.2
        have hdot : c = '.' := by
          have hstop := List.head?_dropWhile_not (· != '.') cs
          rw [hdrop] at hstop
          simpa using hstop
        rw [hdot] at hdrop
        refine ⟨⟨component, key⟩, ?_, ?_⟩
        · rw [Spelling.text, hcomponent, hkey, ← hdrop, List.takeWhile_append_dropWhile, ← hv,
            String.ofList_toList]
        · rw [Spelling.indirection, hc, hk]
          exact Option.some.inj h
      · cases h
  · cases h

/-- A value is read as a reference exactly if it is a spelling of it, and it is a spelling in one
way only. Every other value is none. -/
theorem parse?_exact (v : String) :
    (∀ r, parse? v = some r ↔ ∃ s : Spelling, s.text = v ∧ s.indirection = r) ∧
      (∀ s t : Spelling, s.text = v → t.text = v → s = t) ∧
      (parse? v = none ↔ ∀ s : Spelling, s.text ≠ v) := by
  refine ⟨fun r => ⟨exists_spelling, ?_⟩, fun s t hs ht => ?_, ?_⟩
  · rintro ⟨s, rfl, rfl⟩
    exact s.parse?_text
  · exact Spelling.eq_of_text (hs.trans ht.symm)
  · constructor
    · rintro hnone s rfl
      rw [s.parse?_text] at hnone
      cases hnone
    · intro hother
      refine Option.eq_none_iff_forall_ne_some.mpr fun r hr => ?_
      obtain ⟨s, hs, _⟩ := exists_spelling hr
      exact hother s hs

end Indirection

end ShaderVariants
