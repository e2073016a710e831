/-!
# Equality of doubles

Doubles other than not-a-number fall into classes of equal ones: the two zeros are one class, any
other double is alone in its own.
-/

namespace DocPath.Decimal

open Float.Model (UnpackedFloat)
open Float.Model.UnpackedFloat (Sign)

def representative : UnpackedFloat → UnpackedFloat
  | .zero _ => .zero .positive
  | x => x

def isNumber : UnpackedFloat → Bool
  | .notANumber => false
  | _ => true

theorem isNumber_representative (x : UnpackedFloat) : isNumber (representative x) = isNumber x := by
  cases x <;> rfl

theorem finite_beq_iff (s t : Sign) {m n : Nat} {e f : Int} (hm : 0 < m) (hn : 0 < n) :
    (UnpackedFloat.finite s m e hm).beq (.finite t n f hn) ↔ s = t ∧ e = f ∧ m = n := by
  have magnitude : (compare e f).then (compare m n) = .eq ↔ e = f ∧ m = n := by
    rw [Ordering.then_eq_eq, Int.compare_eq_eq, Nat.compare_eq_eq]
  cases s with
  | negative =>
    cases t with
    | negative =>
      change (some ((compare e f).then (compare m n)).swap == some Ordering.eq) = true ↔ _
      rw [beq_iff_eq, Option.some.injEq, Ordering.swap_eq_eq, magnitude]
      exact (and_iff_right rfl).symm
    | positive => exact iff_of_false nofun nofun
  | positive =>
    cases t with
    | negative => exact iff_of_false nofun nofun
    | positive =>
      change (some ((compare e f).then (compare m n)) == some Ordering.eq) = true ↔ _
      rw [beq_iff_eq, Option.some.injEq, magnitude]
      exact (and_iff_right rfl).symm

theorem unpacked_beq_iff (x y : UnpackedFloat) :
    x.beq y ↔ isNumber x ∧ representative x = representative y := by
  cases x with
  | notANumber => exact iff_of_false (by cases y <;> nofun) nofun
  | zero s =>
    cases y with
    | zero t => exact iff_of_true rfl ⟨rfl, rfl⟩
    | notANumber => exact iff_of_false nofun nofun
    | infinity t | finite t => cases t <;> exact iff_of_false nofun nofun
  | infinity s =>
    cases y with
    | infinity t =>
      cases s <;> cases t
      · exact iff_of_true (by decide) ⟨rfl, rfl⟩
      · exact iff_of_false (by decide) nofun
      · exact iff_of_false (by decide) nofun
      · exact iff_of_true (by decide) ⟨rfl, rfl⟩
    | _ => cases s <;> exact iff_of_false nofun nofun
  | finite s m e hm =>
    cases y with
    | finite t n f hn =>
      rw [finite_beq_iff]
      constructor
      · rintro ⟨rfl, rfl, rfl⟩
        exact ⟨rfl, rfl⟩
      · rintro ⟨-, h⟩
        cases h
        exact ⟨rfl, rfl, rfl⟩
    | infinity t => cases s <;> cases t <;> exact iff_of_false nofun nofun
    | _ => cases s <;> exact iff_of_false nofun nofun

theorem double_beq_iff (x y : Float) : (x == y) = true ↔
    isNumber x.toModel.unpack ∧
      representative x.toModel.unpack = representative y.toModel.unpack :=
  unpacked_beq_iff _ _

variable {x y z : Float}

theorem double_beq_self (h : x.isNaN = false) : (x == x) = true := by
  refine (double_beq_iff x x).mpr ⟨?_, rfl⟩
  change x.toModel.unpack.isNaN = false at h
  cases hx : x.toModel.unpack with
  | notANumber =>
    rw [hx] at h
    cases h
  | _ => rfl

theorem double_beq_symm (h : (x == y) = true) : (y == x) = true := by
  obtain ⟨hx, hxy⟩ := (double_beq_iff x y).mp h
  refine (double_beq_iff y x).mpr ⟨?_, hxy.symm⟩
  rw [← isNumber_representative, ← hxy, isNumber_representative]
  exact hx

theorem double_beq_comm (x y : Float) : (x == y) = (y == x) :=
  Bool.eq_iff_iff.mpr ⟨double_beq_symm, double_beq_symm⟩

theorem double_beq_trans (h : (x == y) = true) (h' : (y == z) = true) : (x == z) = true := by
  obtain ⟨hx, hxy⟩ := (double_beq_iff x y).mp h
  obtain ⟨-, hyz⟩ := (double_beq_iff y z).mp h'
  exact (double_beq_iff x z).mpr ⟨hx, hxy.trans hyz⟩

end DocPath.Decimal
