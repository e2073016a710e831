import DocPath.Decimal.Scaled
import DocPath.Libraries
import DocPath.Pattern.Reader

/-! The libraries that the program is run with. -/
namespace DocPath

def Pattern.engine : Regex.Engine where
  compiles p := (Pattern.read? p.toList).isSome
  isMatch p text :=
    match Pattern.read? p.toList with
    | some n => n.occursIn text
    | none => false

def Decimal.Scaled.arithmetic : Decimal.Arithmetic where
  Number := Scaled
  ofInt := Scaled.ofInt
  ofFloat? := Scaled.ofFloat?
  compare := Scaled.compare
  add? := Scaled.add?
  sub? := Scaled.sub?
  mul? := Scaled.mul?
  div? := Scaled.div?
  toFloat? d := some d.toFloat

instance Libraries.builtin : Libraries := ⟨Pattern.engine, Decimal.Scaled.arithmetic⟩

end DocPath
