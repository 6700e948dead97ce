import Mathlib.Tactic.Tauto
import KeypadCalculator.Calculator

/-! The guards of typing for any choice of the characters that end a number. -/

namespace KeypadCalculator.Buffer

variable {ends : Char → Bool} {b x : Buffer} {c : Char} {t : Text}

/-- The buffer after a text was typed into an empty one. -/
def typed (t : Text) : Buffer := t.foldl append empty

/-- What has been typed since the last character that ends a number, newest first. -/
def segmentBy (ends : Char → Bool) (b : Buffer) : Text :=
  b.newestFirst.takeWhile fun c => !ends c

/-- Typing one character where the characters `ends` end numbers. -/
def appendBy (ends : Char → Bool) (b : Buffer) (c : Char) : Buffer :=
  if c = '0' ∧ b.newestFirst = ['0'] then b
  else if c = '.' then
    if '.' ∈ b.segmentBy ends then b
    else if b.segmentBy ends = [] then (b.push '0').push '.'
    else b.push '.'
  else b.push c

theorem appendBy_endsNumber : appendBy endsNumber = append := rfl

theorem segmentBy_push : (b.push c).segmentBy ends =
    if ends c then [] else c :: b.segmentBy ends := by
  cases h : ends c <;> simp [segmentBy, push, h]

/-- A segment reads on behind what does not end numbers. -/
theorem segmentBy_append {number : Text} (hb : x.newestFirst = number.reverse ++ b.newestFirst)
    (hnumber : ∀ c ∈ number, ends c = false) :
    x.segmentBy ends = number.reverse ++ b.segmentBy ends := by
  rw [segmentBy, hb, List.takeWhile_append_of_pos (by simpa using hnumber), segmentBy]

theorem appendBy_push (h₀ : c = '0' → b.newestFirst ≠ ['0']) (h : c ≠ '.') :
    b.appendBy ends c = b.push c := by
  rw [appendBy, if_neg (by tauto), if_neg h]

theorem appendBy_point_drop (h : '.' ∈ b.segmentBy ends) : b.appendBy ends '.' = b := by
  rw [appendBy, if_neg (by simp), if_pos rfl, if_pos h]

theorem appendBy_point_zero (h : b.segmentBy ends = []) :
    b.appendBy ends '.' = (b.push '0').push '.' := by
  rw [appendBy, if_neg (by simp), if_pos rfl, if_neg (by simp [h]), if_pos h]

theorem appendBy_point (h : '.' ∉ b.segmentBy ends) (hne : b.segmentBy ends ≠ []) :
    b.appendBy ends '.' = b.push '.' := by
  rw [appendBy, if_neg (by simp), if_pos rfl, if_neg h, if_neg hne]

/-- The guards have nothing to do for this character. -/
def Admits (b : Buffer) (c : Char) : Prop :=
  ¬ (c = '0' ∧ b.newestFirst = ['0']) ∧ (c = '.' → '.' ∉ b.segment ∧ b.segment ≠ [])

theorem append_of_admits (h : b.Admits c) : b.append c = b.push c := by
  by_cases hc : c = '.'
  · subst hc
    exact appendBy_point (h.2 rfl).1 (h.2 rfl).2
  · exact appendBy_push (fun hzero hlone => h.1 ⟨hzero, hlone⟩) hc

/-- Otherwise they drop it, or put a zero before it. -/
theorem append_of_not_admits (h : ¬ b.Admits c) : b.append c = b ∨
    (c = '.' ∧ b.segment = [] ∧ b.append c = (b.push '0').push '.') := by
  by_cases hz : c = '0' ∧ b.newestFirst = ['0']
  · exact Or.inl (if_pos hz)
  by_cases hc : c = '.'
  · subst hc
    by_cases hmem : '.' ∈ b.segment
    · exact Or.inl (appendBy_point_drop hmem)
    · by_cases hnil : b.segment = []
      · exact Or.inr ⟨rfl, hnil, appendBy_point_zero hnil⟩
      · exact absurd ⟨hz, fun _ => ⟨hmem, hnil⟩⟩ h
  · exact absurd ⟨hz, fun he => absurd he hc⟩ h

/-- How much longer a point makes a buffer. -/
def pointGrowth (ends : Char → Bool) (b : Buffer) : Nat :=
  if '.' ∈ b.segmentBy ends then 0 else if b.segmentBy ends = [] then 2 else 1

theorem length_appendBy_point (b : Buffer) : (b.appendBy ends '.').newestFirst.length =
    b.newestFirst.length + b.pointGrowth ends := by
  by_cases hmem : '.' ∈ b.segmentBy ends
  · rw [appendBy_point_drop hmem, pointGrowth, if_pos hmem, Nat.add_zero]
  · by_cases hnil : b.segmentBy ends = []
    · rw [appendBy_point_zero hnil, pointGrowth, if_neg hmem, if_pos hnil]
      rfl
    · rw [appendBy_point hmem hnil, pointGrowth, if_neg hmem, if_neg hnil]
      rfl

/-- All that the guard of points reads off a buffer is the same for another. -/
def SameGuard (ends : Char → Bool) (b x : Buffer) : Prop :=
  ('.' ∈ b.segmentBy ends ↔ '.' ∈ x.segmentBy ends) ∧
    (b.segmentBy ends = [] ↔ x.segmentBy ends = [])

/-- Where neither digits nor points end numbers, the guard could read the text that was meant. -/
theorem sameGuard_step (h₀ : ends '0' = false) (hp : ends '.' = false) (h : SameGuard ends b x)
    (c : Char) : SameGuard ends (b.appendBy ends c) (x.push c) := by
  obtain ⟨hpoint, hempty⟩ := h
  by_cases hz : c = '0' ∧ b.newestFirst = ['0']
  · have hb : b.segmentBy ends = ['0'] := by simp [segmentBy, hz.2, h₀]
    rw [appendBy, if_pos hz, SameGuard, segmentBy_push, hz.1, h₀]
    simp [hb] at hpoint ⊢
    exact hpoint
  · by_cases hc : c = '.'
    · subst hc
      by_cases hmem : '.' ∈ b.segmentBy ends
      · rw [appendBy_point_drop hmem, SameGuard, segmentBy_push, hp]
        simp [hmem, List.ne_nil_of_mem hmem]
      · by_cases hnil : b.segmentBy ends = []
        · rw [appendBy_point_zero hnil]
          simp [SameGuard, segmentBy_push, hp]
        · rw [appendBy_point hmem hnil]
          simp [SameGuard, segmentBy_push, hp]
    · rw [appendBy_push (by tauto) hc, SameGuard, segmentBy_push, segmentBy_push]
      cases ends c <;> simp [hpoint, Ne.symm hc]

theorem SameGuard.pointGrowth_eq (h : SameGuard ends b x) :
    b.pointGrowth ends = x.pointGrowth ends := by
  simp only [pointGrowth, h.1, h.2]

theorem typeText_eq (k : Calculator) (hf : k.failure = none) (hm : k.mode = .editing) (t : Text) :
    k.typeText t = { k with buffer := t.foldl append k.buffer } := by
  induction t generalizing k with
  | nil => rfl
  | cons c t ih =>
    rw [Calculator.typeText, List.foldl_cons]
    apply (ih (k.append c) rfl rfl).trans
    simp [Calculator.append, Calculator.edit, hf, hm]

/-- Typing into a fresh calculator changes nothing but its text. -/
theorem typeText_withPrecision (p : Nat) (t : Text) : (Calculator.withPrecision p).typeText t =
    { Calculator.withPrecision p with buffer := typed t } :=
  typeText_eq _ rfl rfl t

end KeypadCalculator.Buffer
