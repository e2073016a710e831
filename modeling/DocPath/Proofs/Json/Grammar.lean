import DocPath.Proofs.Decimal.Layout
import DocPath.Proofs.Json.Strings
import DocPath.Proofs.Value.Formed

/-!
# The grammar of documents

The texts of documents without floats as RFC 8259 has them, told without a reader or a printer.
Of a reader it is assumed that it gives each of these texts the value that it denotes.
-/

namespace DocPath.Value

def isFloat : Value → Bool
  | .float _ => true
  | _ => false

def Floatless (v : Value) : Prop := v.all fun w => !w.isFloat

instance (v : Value) : Decidable v.Floatless := inferInstanceAs (Decidable (_ = true))

theorem floatless_iff {v : Value} :
    v.Floatless ↔ v.isFloat = false ∧ ∀ c ∈ v.children, c.Floatless := by
  unfold Floatless
  rw [all_iff, Bool.not_eq_true']

end DocPath.Value

namespace DocPath.Json

def Blank (cs : List Char) : Prop := ∀ c ∈ cs, isBlank c

def separated : List (List Char) → List Char
  | [] => []
  | [text] => text
  | text :: next :: texts => text ++ ',' :: separated (next :: texts)

/-- The texts of a member's name: a string, with blanks around it. -/
inductive DenotesName : List Char → String → Prop where
  | mk {before text after : List Char} {name : String} (blank : Blank before)
    (string : StringText text name.toList) (blank' : Blank after) :
    DenotesName (before ++ '"' :: (text ++ '"' :: after)) name

/-- The texts of a document. Each item of an array is given with its text, and each member of an
object with those of its name and its value. The names are distinct. -/
inductive Denotes : List Char → Value → Prop where
  | spaced {before text after : List Char} {v : Value} (blank : Blank before)
    (denotes : Denotes text v) (blank' : Blank after) : Denotes (before ++ (text ++ after)) v
  | null : Denotes "null".toList .null
  | bool (b : Bool) : Denotes (toString b).toList (.bool b)
  | int (n : Int64) : Denotes (toString n.toInt).toList (.int n)
  | str {text : List Char} {s : String} (string : StringText text s.toList) :
    Denotes ('"' :: (text ++ ['"'])) (.str s)
  | array {items : List (List Char × Value)} {blanks : List Char}
    (denote : ∀ item ∈ items, Denotes item.1 item.2) (blank : Blank blanks) :
    Denotes ('[' :: (separated (items.map (·.1)) ++ (blanks ++ [']']))) (.array (items.map (·.2)))
  | object {members : List ((List Char × List Char) × (String × Value))} {blanks : List Char}
    (names : ∀ m ∈ members, DenotesName m.1.1 m.2.1)
    (denote : ∀ m ∈ members, Denotes m.1.2 m.2.2) (blank : Blank blanks)
    (distinct : (members.map (·.2.1)).Nodup) :
    Denotes ('\x7b' :: (separated (members.map fun m => m.1.1 ++ ':' :: m.1.2) ++
      (blanks ++ ['\x7d']))) (.object (members.map (·.2)))

/-- What is documented of a reader: it reads documents by the grammar when their containers are
nested no deeper than it allows. -/
def ReadsGrammar (read? : String → Option Value) : Prop :=
  ∀ {text : List Char} {v : Value}, Denotes text v → v.height ≤ maxDepth →
    read? (String.ofList text) = some v

end DocPath.Json
