import PhpIndex.Text.Cut

/-!
# Modifiers

The keywords in front of a declaration, as sets of flags. Each set has a number form with one
bit for each flag, and only the declared bits are read back.
-/
namespace PhpIndex

structure Modifiers where
  isStatic : Bool := false
  isAbstract : Bool := false
  isFinal : Bool := false
  isReadonly : Bool := false
  deriving DecidableEq, Inhabited

/-- The weight of a flag in the number form. -/
def flagBit (flag : Bool) (weight : UInt32) : UInt32 := if flag then weight else 0

/-- Whether the bit of this weight is set. -/
def hasBit (bits weight : UInt32) : Bool := bits &&& weight != 0

namespace Modifiers

def toBits (m : Modifiers) : UInt32 :=
  flagBit m.isStatic 1 ||| flagBit m.isAbstract 2 ||| flagBit m.isFinal 4 |||
    flagBit m.isReadonly 8

def ofBits? (bits : UInt32) : Option Modifiers :=
  if bits &&& 15 = bits then
    some ⟨hasBit bits 1, hasBit bits 2, hasBit bits 4, hasBit bits 8⟩
  else none

def union (a b : Modifiers) : Modifiers :=
  ⟨a.isStatic || b.isStatic, a.isAbstract || b.isAbstract, a.isFinal || b.isFinal,
   a.isReadonly || b.isReadonly⟩

theorem ofBits?_toBits (m : Modifiers) : ofBits? m.toBits = some m := by
  rcases m with ⟨a, b, c, d⟩
  cases a <;> cases b <;> cases c <;> cases d <;> decide

end Modifiers

structure Visibility where
  isPublic : Bool := false
  isProtected : Bool := false
  isPrivate : Bool := false
  deriving DecidableEq, Inhabited

namespace Visibility

def toBits (v : Visibility) : UInt32 :=
  flagBit v.isPublic 1 ||| flagBit v.isProtected 2 ||| flagBit v.isPrivate 4

def ofBits? (bits : UInt32) : Option Visibility :=
  if bits &&& 7 = bits then some ⟨hasBit bits 1, hasBit bits 2, hasBit bits 4⟩ else none

def union (a b : Visibility) : Visibility :=
  ⟨a.isPublic || b.isPublic, a.isProtected || b.isProtected, a.isPrivate || b.isPrivate⟩

/-- The narrowest keyword given; public if there is none. -/
def keyword (v : Visibility) : String :=
  if v.isPrivate then "private" else if v.isProtected then "protected" else "public"

theorem ofBits?_toBits (v : Visibility) : ofBits? v.toBits = some v := by
  rcases v with ⟨a, b, c⟩
  cases a <;> cases b <;> cases c <;> decide

end Visibility

/-- One modifier keyword. -/
inductive ModifierWord where
  | modifier (m : Modifiers)
  | visibility (v : Visibility)
  deriving DecidableEq

namespace ModifierWord

/-- Reads a keyword in any case. -/
def parse? (keyword : String) : Option ModifierWord :=
  match Text.lowerAscii (Text.trimBlank keyword) with
  | "static" => some (.modifier { isStatic := true })
  | "abstract" => some (.modifier { isAbstract := true })
  | "final" => some (.modifier { isFinal := true })
  | "readonly" => some (.modifier { isReadonly := true })
  | "public" => some (.visibility { isPublic := true })
  | "var" => some (.visibility { isPublic := true })
  | "protected" => some (.visibility { isProtected := true })
  | "private" => some (.visibility { isPrivate := true })
  | _ => none

end ModifierWord
end PhpIndex
