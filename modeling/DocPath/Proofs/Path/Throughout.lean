import DocPath.Proofs.Script.Templates

/-!
# What holds of a path to any depth

Filters hold scripts, scripts hold operands, and operands hold paths and lists of operands. A
property of fragments and one of operands are followed through all of these.
-/

namespace DocPath

mutual

/-- Whether a fragment and all that its script holds have the properties given for fragments and
for operands. -/
def Fragment.Throughout (F : Fragment → Prop) (P : Operand → Prop) : Fragment → Prop
  | .filter template => F (.filter template) ∧ SlotsThroughout F P template
  | f => F f

def FragmentsThroughout (F : Fragment → Prop) (P : Operand → Prop) : List Fragment → Prop
  | [] => True
  | f :: fs => f.Throughout F P ∧ FragmentsThroughout F P fs

def SlotsThroughout (F : Fragment → Prop) (P : Operand → Prop) : List Slot → Prop
  | [] => True
  | .operand o :: rest => o.Throughout F P ∧ SlotsThroughout F P rest
  | .op _ :: rest => SlotsThroughout F P rest

def Operand.Throughout (F : Fragment → Prop) (P : Operand → Prop) : Operand → Prop
  | .path p => P (.path p) ∧ FragmentsThroughout F P p
  | .list items => P (.list items) ∧ OperandsThroughout F P items
  | o => P o

def OperandsThroughout (F : Fragment → Prop) (P : Operand → Prop) : List Operand → Prop
  | [] => True
  | o :: os => o.Throughout F P ∧ OperandsThroughout F P os

end

variable {F : Fragment → Prop} {P : Operand → Prop}

theorem slotsThroughout_append {s s' : Script} :
    SlotsThroughout F P (s ++ s') ↔ SlotsThroughout F P s ∧ SlotsThroughout F P s' := by
  induction s with
  | nil => exact (and_iff_right trivial).symm
  | cons slot s ih =>
    cases slot with
    | op o => exact ih
    | operand o => exact (and_congr_right fun _ => ih).trans and_assoc.symm

section decidable

variable [DecidablePred F] [DecidablePred P]

mutual

def Fragment.decideThroughout : (f : Fragment) → Decidable (f.Throughout F P)
  | .filter template =>
    have := decideSlotsThroughout template
    inferInstanceAs (Decidable (F (.filter template) ∧ SlotsThroughout F P template))
  | .root => inferInstanceAs (Decidable (F .root))
  | .current => inferInstanceAs (Decidable (F .current))
  | .bracket => inferInstanceAs (Decidable (F .bracket))
  | .child name => inferInstanceAs (Decidable (F (.child name)))
  | .nth i => inferInstanceAs (Decidable (F (.nth i)))
  | .wildcard => inferInstanceAs (Decidable (F .wildcard))
  | .descent => inferInstanceAs (Decidable (F .descent))
  | .slice s => inferInstanceAs (Decidable (F (.slice s)))
  | .union keys => inferInstanceAs (Decidable (F (.union keys)))

def decideFragmentsThroughout : (fs : List Fragment) → Decidable (FragmentsThroughout F P fs)
  | [] => .isTrue trivial
  | f :: fs =>
    have := f.decideThroughout
    have := decideFragmentsThroughout fs
    inferInstanceAs (Decidable (f.Throughout F P ∧ FragmentsThroughout F P fs))

def decideSlotsThroughout : (s : List Slot) → Decidable (SlotsThroughout F P s)
  | [] => .isTrue trivial
  | .operand o :: rest =>
    have := o.decideThroughout
    have := decideSlotsThroughout rest
    inferInstanceAs (Decidable (o.Throughout F P ∧ SlotsThroughout F P rest))
  | .op _ :: rest => decideSlotsThroughout rest

def Operand.decideThroughout : (o : Operand) → Decidable (o.Throughout F P)
  | .path p =>
    have := decideFragmentsThroughout p
    inferInstanceAs (Decidable (P (.path p) ∧ FragmentsThroughout F P p))
  | .list items =>
    have := decideOperandsThroughout items
    inferInstanceAs (Decidable (P (.list items) ∧ OperandsThroughout F P items))
  | .null => inferInstanceAs (Decidable (P .null))
  | .nothing => inferInstanceAs (Decidable (P .nothing))
  | .bool b => inferInstanceAs (Decidable (P (.bool b)))
  | .int n => inferInstanceAs (Decidable (P (.int n)))
  | .float x => inferInstanceAs (Decidable (P (.float x)))
  | .str s => inferInstanceAs (Decidable (P (.str s)))
  | .regex r => inferInstanceAs (Decidable (P (.regex r)))

def decideOperandsThroughout : (os : List Operand) → Decidable (OperandsThroughout F P os)
  | [] => .isTrue trivial
  | o :: os =>
    have := o.decideThroughout
    have := decideOperandsThroughout os
    inferInstanceAs (Decidable (o.Throughout F P ∧ OperandsThroughout F P os))

end

instance (s : Script) : Decidable (SlotsThroughout F P s) := decideSlotsThroughout s

end decidable

namespace Equation

/-- Trees whose operands have the properties to any depth. -/
def Throughout (F : Fragment → Prop) (P : Operand → Prop) : Equation → Prop
  | .value o => o.Throughout F P
  | .unary _ left => left.Throughout F P
  | .binary _ left right => left.Throughout F P ∧ right.Throughout F P

/-- The template of a tree holds its operands, and null where one is missing. -/
theorem Throughout.compile {e : Equation} (h : e.Throughout F P) (hnull : P .null) :
    SlotsThroughout F P e.compile := by
  induction e with
  | value o => exact ⟨h, trivial⟩
  | unary op left ih =>
    refine slotsThroughout_append.mpr ⟨ih h, ?_⟩
    split
    · exact ⟨hnull, trivial⟩
    · exact trivial
  | binary op left right ihl ihr =>
    refine slotsThroughout_append.mpr ⟨ihl h.1, ?_⟩
    split
    · exact ihr h.2
    · exact trivial

end Equation

end DocPath
