import Rebuild.Artifact.ClassFile
import Rebuild.Text.Utf8

/-!
Encoding artifacts. The entries of the constant pool are written in the order in which they are
first needed, and equal entries are written once.
-/
namespace Rebuild.Artifact

/-- A symbol that the code of an artifact uses. -/
inductive Symbol where
  | type (name : String)
  | field (owner name descriptor : String)
  | method (owner name descriptor : String)
  | interfaceMethod (owner name descriptor : String)
  | methodType (descriptor : String)
  deriving DecidableEq, Repr

/-- An artifact to be written. Types go by their internal names. -/
structure ClassDescription where
  thisClass : String
  superClass : Option String := some "java/lang/Object"
  access : UInt16 := 0x21
  interfaces : List String := []
  signature : Option String := none
  fields : List Member := []
  methods : List Member := []
  symbols : List Symbol := []
  innerClasses : List InnerClass := []
  deriving DecidableEq, Repr

namespace Writer

/-- Two bytes, most significant first; higher digits are lost. -/
def u2 (n : Nat) : List UInt8 := [UInt8.ofNat (n / 256), UInt8.ofNat n]

/-- Four bytes, most significant first; higher digits are lost. -/
def u4 (n : Nat) : List UInt8 :=
  [UInt8.ofNat (n / 16777216), UInt8.ofNat (n / 65536), UInt8.ofNat (n / 256), UInt8.ofNat n]

/-- An encoded pool entry: its tag and the bytes behind it. -/
structure PoolEntry where
  tag : UInt8
  payload : List UInt8
  deriving DecidableEq

/-- The entries written so far; the first has index one. -/
structure Pool where
  entries : List PoolEntry := []

/-- Writing numbers entries on demand. -/
abbrev WriteM := StateM Pool

/-- The index of an entry, which is added if it is new. -/
def intern (entry : PoolEntry) : WriteM Nat := do
  let pool ← get
  match pool.entries.idxOf? entry with
  | some i => return i + 1
  | none =>
    set { pool with entries := pool.entries ++ [entry] }
    return pool.entries.length + 1

def utf8 (text : String) : WriteM Nat :=
  let bytes := Text.Utf8.encode text
  intern ⟨1, u2 bytes.length ++ bytes⟩

def classRef (internal : String) : WriteM Nat := do
  let name ← utf8 internal
  intern ⟨7, u2 name⟩

def memberRef (tag : UInt8) (owner name descriptor : String) : WriteM Nat := do
  let owner ← classRef owner
  let name ← utf8 name
  let descriptor ← utf8 descriptor
  let nameAndType ← intern ⟨12, u2 name ++ u2 descriptor⟩
  intern ⟨tag, u2 owner ++ u2 nameAndType⟩

/-- An index, where nothing is written as zero. -/
def optional (write : String → WriteM Nat) : Option String → WriteM Nat
  | none => return 0
  | some text => write text

def symbol : Symbol → WriteM Nat
  | .type name => classRef name
  | .field owner name descriptor => memberRef 9 owner name descriptor
  | .method owner name descriptor => memberRef 10 owner name descriptor
  | .interfaceMethod owner name descriptor => memberRef 11 owner name descriptor
  | .methodType descriptor => do
    let text ← utf8 descriptor
    intern ⟨16, u2 text⟩

/-- An attribute with its length. -/
def attributeBytes (name : Nat) (body : List UInt8) : List UInt8 :=
  u2 name ++ u4 body.length ++ body

def signatureAttribute : Option String → WriteM (List (List UInt8))
  | none => return []
  | some text => do
    let name ← utf8 "Signature"
    let text ← utf8 text
    return [attributeBytes name (u2 text)]

/-- The types a member throws; without any the attribute is left out. -/
def thrownAttribute (thrown : List String) : WriteM (List (List UInt8)) := do
  if thrown = [] then return []
  let classes ← thrown.mapM classRef
  let name ← utf8 "Exceptions"
  return [attributeBytes name (u2 thrown.length ++ classes.flatMap u2)]

def innerClass (entry : InnerClass) : WriteM (List UInt8) := do
  let inner ← classRef entry.inner
  let outer ← optional classRef entry.outer
  let name ← optional utf8 entry.name
  return u2 inner ++ u2 outer ++ u2 name ++ u2 entry.access.toNat

/-- The nested classes; without any the attribute is left out. -/
def innerClassesAttribute (entries : List InnerClass) : WriteM (List (List UInt8)) := do
  if entries = [] then return []
  let bodies ← entries.mapM innerClass
  let name ← utf8 "InnerClasses"
  return [attributeBytes name (u2 entries.length ++ bodies.flatten)]

def attributeTable (attributes : List (List UInt8)) : List UInt8 :=
  u2 attributes.length ++ attributes.flatten

def member (m : Member) : WriteM (List UInt8) := do
  let name ← utf8 m.name
  let descriptor ← utf8 m.descriptor
  let signature ← signatureAttribute m.signature
  let thrown ← thrownAttribute m.thrown
  return u2 m.access.toNat ++ u2 name ++ u2 descriptor ++ attributeTable (signature ++ thrown)

def memberTable (members : List Member) : WriteM (List UInt8) := do
  let bodies ← members.mapM member
  return u2 members.length ++ bodies.flatten

/-- Everything behind the constant pool. -/
def body (c : ClassDescription) : WriteM (List UInt8) := do
  let thisClass ← classRef c.thisClass
  let superClass ← optional classRef c.superClass
  let interfaces ← c.interfaces.mapM classRef
  let _ ← c.symbols.mapM symbol
  let fields ← memberTable c.fields
  let methods ← memberTable c.methods
  let signature ← signatureAttribute c.signature
  let innerClasses ← innerClassesAttribute c.innerClasses
  return u2 c.access.toNat ++ u2 thisClass ++ u2 superClass
    ++ u2 c.interfaces.length ++ interfaces.flatMap u2
    ++ fields ++ methods ++ attributeTable (signature ++ innerClasses)

/-- The bytes of a pool: the count, which is one above the last index, and the entries. -/
def poolBytes (pool : Pool) : List UInt8 :=
  u2 (pool.entries.length + 1) ++ pool.entries.flatMap fun e => e.tag :: e.payload

end Writer

/-- The bytes of an artifact, in version 52.0 of the format. -/
def ClassDescription.encode (c : ClassDescription) : List UInt8 :=
  let (body, pool) := (Writer.body c).run {}
  Writer.u4 ClassFile.magic ++ Writer.u2 0 ++ Writer.u2 52 ++ Writer.poolBytes pool ++ body

end Rebuild.Artifact
