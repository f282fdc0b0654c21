import PhpIndex.Record.Format
import PhpIndex.Symbol.Table

/-!
# Records of symbols

The layouts of the declarations, each behind the tag of its kind.
-/
namespace PhpIndex

open Reader in
instance : RecordFormat Parameter where
  write p :=
    Write.text p.name ++ Write.types p.types ++ Write.optional Write.text p.default? ++
      Write.bool p.byReference ++ Write.bool p.variadic ++ Write.location p.location
  read := do
    let name ← text
    let types ← types
    let default? ← optional text
    let byReference ← bool
    let variadic ← bool
    let location ← location
    pure ⟨name, types, default?, byReference, variadic, location⟩

open Reader in
instance : RecordFormat Signature where
  write s := Write.list RecordFormat.write s.parameters ++ Write.types s.returnTypes
  read := do
    let parameters ← list 4 RecordFormat.read
    let returnTypes ← types
    pure ⟨parameters, returnTypes⟩

namespace ClassDecl

def write (c : ClassDecl) : Bytes :=
  Write.text c.name ++ Write.location c.location ++ Write.word c.modifiers.toBits ++
    Write.word 0 ++ Write.texts c.parents ++ Write.texts c.interfaces ++ Write.texts c.traits ++
    Write.optional Write.text c.description?

end ClassDecl

namespace Reader

def classDecl (sort : ClassSort) : Reader ClassDecl := do
  let name ← text
  let location ← location
  let modifiers ← modifiers
  let _ ← visibility
  let parents ← texts
  let interfaces ← texts
  let traits ← texts
  let description? ← optional text
  pure ⟨sort, name, location, modifiers, parents, interfaces, traits, description?⟩

end Reader

namespace FunctionDecl

def write (f : FunctionDecl) : Bytes :=
  Write.text f.name ++ Write.location f.location ++ RecordFormat.write f.signature ++
    Write.optional Write.text f.description?

end FunctionDecl

namespace Reader

def functionDecl : Reader FunctionDecl := do
  let name ← text
  let location ← location
  let signature ← RecordFormat.read
  let description? ← optional text
  pure ⟨name, location, signature, description?⟩

end Reader

namespace MethodDecl

def write (m : MethodDecl) : Bytes :=
  Write.text m.name ++ Write.text m.scope ++ Write.location m.location ++
    Write.word m.modifiers.toBits ++ Write.word m.visibility.toBits ++
    RecordFormat.write m.signature ++ Write.optional Write.text m.description?

end MethodDecl

namespace Reader

def methodDecl : Reader MethodDecl := do
  let name ← text
  let scope ← text
  let location ← location
  let modifiers ← modifiers
  let visibility ← visibility
  let signature ← RecordFormat.read
  let description? ← optional text
  pure ⟨name, scope, location, modifiers, visibility, signature, description?⟩

end Reader

namespace PropertyDecl

def write (p : PropertyDecl) : Bytes :=
  Write.text p.name ++ Write.text p.scope ++ Write.location p.location ++
    Write.word p.modifiers.toBits ++ Write.word p.visibility.toBits ++ Write.types p.types ++
    Write.optional Write.text p.description?

end PropertyDecl

namespace Reader

def propertyDecl : Reader PropertyDecl := do
  let name ← text
  let scope ← text
  let location ← location
  let modifiers ← modifiers
  let visibility ← visibility
  let types ← types
  let description? ← optional text
  pure ⟨name, scope, location, modifiers, visibility, types, description?⟩

end Reader

namespace ConstantDecl

def tag (c : ConstantDecl) : UInt32 := if c.viaDefine then Tag.defineConstant else Tag.constant

def write (c : ConstantDecl) : Bytes :=
  Write.text c.name ++ Write.location c.location ++ Write.optional Write.text c.value? ++
    Write.types c.types ++ Write.optional Write.text c.description?

end ConstantDecl

namespace Reader

def constantDecl (viaDefine : Bool) : Reader ConstantDecl := do
  let name ← text
  let location ← location
  let value? ← optional text
  let types ← types
  let description? ← optional text
  pure ⟨viaDefine, name, location, value?, types, description?⟩

end Reader

namespace ClassConstantDecl

/-- The place of the modifiers is kept, without any. -/
def write (c : ClassConstantDecl) : Bytes :=
  Write.text c.name ++ Write.text c.scope ++ Write.location c.location ++ Write.word 0 ++
    Write.word c.visibility.toBits ++ Write.optional Write.text c.value? ++
    Write.types c.types ++ Write.optional Write.text c.description?

end ClassConstantDecl

namespace Reader

def classConstantDecl : Reader ClassConstantDecl := do
  let name ← text
  let scope ← text
  let location ← location
  let _ ← modifiers
  let visibility ← visibility
  let value? ← optional text
  let types ← types
  let description? ← optional text
  pure ⟨name, scope, location, visibility, value?, types, description?⟩

end Reader

namespace VariableDecl

def write (v : VariableDecl) : Bytes :=
  Write.text v.name ++ Write.location v.location ++ Write.types v.types

end VariableDecl

namespace Reader

def variableDecl : Reader VariableDecl := do
  let name ← text
  let location ← location
  let types ← types
  pure ⟨name, location, types⟩

end Reader

namespace Symbol

def write : Symbol → Bytes
  | .classLike c => Write.word (Tag.ofClass c.sort) ++ c.write
  | .function f => Write.word Tag.function ++ f.write
  | .method m => Write.word Tag.method ++ m.write
  | .property p => Write.word Tag.property ++ p.write
  | .constant c => Write.word c.tag ++ c.write
  | .classConstant c => Write.word Tag.classConstant ++ c.write
  | .variable v => Write.word Tag.localVariable ++ v.write

/-- The rest of a symbol behind its tag. -/
def readTagged (tag : UInt32) : Reader Symbol :=
  if tag = Tag.ofClass .class then .classLike <$> Reader.classDecl .class
  else if tag = Tag.ofClass .interface then .classLike <$> Reader.classDecl .interface
  else if tag = Tag.ofClass .trait then .classLike <$> Reader.classDecl .trait
  else if tag = Tag.function then .function <$> Reader.functionDecl
  else if tag = Tag.method then .method <$> Reader.methodDecl
  else if tag = Tag.property then .property <$> Reader.propertyDecl
  else if tag = Tag.constant then .constant <$> Reader.constantDecl false
  else if tag = Tag.defineConstant then .constant <$> Reader.constantDecl true
  else if tag = Tag.classConstant then .classConstant <$> Reader.classConstantDecl
  else if tag = Tag.localVariable then .variable <$> Reader.variableDecl
  else Reader.fail (.unknownTag tag)

end Symbol

instance : RecordFormat Symbol where
  write := Symbol.write
  read := do
    let tag ← Reader.word
    Symbol.readTagged tag

end PhpIndex
