import Rebuild.Artifact.ConstantPool
import Rebuild.Name

/-!
Decoded artifacts. Of the attributes, only those are kept that tell which types the artifact
depends on: generic signatures, thrown types and nested classes.
-/
namespace Rebuild.Artifact

/-! ## Access flags -/

namespace Access

def isPublic : UInt16 := 0x0001
def isPrivate : UInt16 := 0x0002
def isStatic : UInt16 := 0x0008
def isFinal : UInt16 := 0x0010
def isSuper : UInt16 := 0x0020
def isInterface : UInt16 := 0x0200
def isAbstract : UInt16 := 0x0400
def isSynthetic : UInt16 := 0x1000

/-- Is one of the bits of `mask` set? -/
def has (flags mask : UInt16) : Bool := flags &&& mask != 0

end Access

/-! ## Decoded forms -/

/-- A field or a method. -/
structure Member where
  access : UInt16
  name : String
  descriptor : String
  signature : Option String
  /-- Internal names of the types that a method declares to throw. -/
  thrown : List String
  deriving DecidableEq, Repr

namespace Member

def isStatic (m : Member) : Bool := Access.has m.access Access.isStatic

def isSynthetic (m : Member) : Bool := Access.has m.access Access.isSynthetic

def isConstructor (m : Member) : Bool := m.name == "<init>"

def isStaticInitializer (m : Member) : Bool := m.name == "<clinit>"

end Member

/-- A nested class that the artifact mentions. -/
structure InnerClass where
  inner : String
  outer : Option String
  name : Option String
  access : UInt16
  deriving DecidableEq, Repr

/-- A decoded artifact. Types go by their internal names. -/
structure ClassFile where
  minorVersion : Nat
  majorVersion : Nat
  access : UInt16
  thisClass : String
  superClass : Option String
  interfaces : List String
  fields : List Member
  methods : List Member
  signature : Option String
  innerClasses : List InnerClass
  pool : ConstantPool
  deriving DecidableEq, Repr

/-! ## Attributes -/

/-- What an attribute can belong to. -/
inductive Holder where
  | type
  | member
  deriving DecidableEq

/-- What is kept of the attributes of one holder. -/
structure Attributes where
  signature : Option String := none
  innerClasses : List InnerClass := []
  thrown : List String := []

namespace Attributes

/-- Reads the whole body of an attribute; a body that goes on behind its contents is malformed. -/
def readBody (name : String) (reader : Reader α) (body : List UInt8) :
    Except DecodeError α := do
  let (value, cursor) ← reader ⟨body, 0⟩
  if cursor.rest = [] then return value else throw (.malformedAttribute name)

/-- The body of a signature is the index of its text. -/
def signatureBody (pool : ConstantPool) : Reader String := fun cursor =>
  match Reader.u2 cursor with
  | .error _ => .error (.malformedAttribute "Signature")
  | .ok (index, cursor) => (pool.text index).map fun text => (text, cursor)

/-- Reads an index and looks up the class there. -/
def readClassName (pool : ConstantPool) : Reader String := do
  let index ← Reader.u2
  Reader.lift (pool.className index)

def readInnerClass (pool : ConstantPool) : Reader InnerClass := do
  let inner ← readClassName pool
  let outerIndex ← Reader.u2
  let outer ← Reader.lift (pool.className? outerIndex)
  let nameIndex ← Reader.u2
  let name ← Reader.lift (pool.text? nameIndex)
  let access ← Reader.u2
  return { inner, outer, name, access := UInt16.ofNat access }

/-- Adds one attribute. A second signature replaces the first, lists grow, and what is not
known or not at home in the holder is passed over. -/
def add (holder : Holder) (pool : ConstantPool) (kept : Attributes) (name : String)
    (body : List UInt8) : Except DecodeError Attributes := do
  if name = "Signature" then
    let text ← readBody name (signatureBody pool) body
    return { kept with signature := some text }
  else if name = "Exceptions" ∧ holder = .member then
    let names ← readBody name (Reader.counted (readClassName pool)) body
    return { kept with thrown := kept.thrown ++ names }
  else if name = "InnerClasses" ∧ holder = .type then
    let classes ← readBody name (Reader.counted (readInnerClass pool)) body
    return { kept with innerClasses := kept.innerClasses ++ classes }
  else return kept

/-- Reads `count` attributes: for each the index of its name, the length of its body, the body. -/
def readMore (holder : Holder) (pool : ConstantPool) :
    (count : Nat) → Attributes → Reader Attributes
  | 0, kept => return kept
  | count + 1, kept => do
    let nameIndex ← Reader.u2
    let length ← Reader.u4
    let body ← Reader.bytes length
    let name ← Reader.lift (pool.text nameIndex)
    let kept ← Reader.lift (kept.add holder pool name body)
    readMore holder pool count kept

def read (holder : Holder) (pool : ConstantPool) : Reader Attributes := do
  let count ← Reader.u2
  readMore holder pool count {}

end Attributes

/-! ## Decoding -/

def Member.read (pool : ConstantPool) : Reader Member := do
  let access ← Reader.u2
  let nameIndex ← Reader.u2
  let name ← Reader.lift (pool.text nameIndex)
  let descriptorIndex ← Reader.u2
  let descriptor ← Reader.lift (pool.text descriptorIndex)
  let attributes ← Attributes.read .member pool
  return {
    access := UInt16.ofNat access
    name, descriptor
    signature := attributes.signature
    thrown := attributes.thrown }

namespace ClassFile

/-- The four bytes every artifact starts with. -/
def magic : Nat := 0xCAFEBABE

def readMagic : Reader Unit := do
  let word ← Reader.u4
  if word = magic then return () else throw (.invalidMagic word)

def read : Reader ClassFile := do
  readMagic
  let minorVersion ← Reader.u2
  let majorVersion ← Reader.u2
  let pool ← ConstantPool.read
  let access ← Reader.u2
  let thisClass ← Attributes.readClassName pool
  let superIndex ← Reader.u2
  let superClass ← Reader.lift (pool.className? superIndex)
  let interfaces ← Reader.counted (Attributes.readClassName pool)
  let fields ← Reader.counted (Member.read pool)
  let methods ← Reader.counted (Member.read pool)
  let attributes ← Attributes.read .type pool
  Reader.finish
  return {
    minorVersion, majorVersion
    access := UInt16.ofNat access
    thisClass, superClass, interfaces, fields, methods
    signature := attributes.signature
    innerClasses := attributes.innerClasses
    pool }

/-- Decodes an artifact; every byte must belong to it. -/
def decode (bytes : List UInt8) : Except DecodeError ClassFile := Reader.run read bytes

def isInterface (c : ClassFile) : Bool := Access.has c.access Access.isInterface

/-- The binary name of the class. -/
def binaryName (c : ClassFile) : String := Name.toBinary c.thisClass

/-- The internal name of the outermost type around the class. -/
def rootClass (c : ClassFile) : String := Name.rootInternal c.thisClass

/-- Does an internal name stand for the outermost type around the class, or for a type
nested in that? -/
def isSelfOrNested (c : ClassFile) (internal : String) : Bool :=
  Name.isSelfOrNested c.rootClass internal

/-- The internal names of the types nested directly in the class. -/
def nestedTypes (c : ClassFile) : List String :=
  (c.innerClasses.filter fun entry => entry.outer == some c.thisClass).map InnerClass.inner

/-- The internal names of the super class and the interfaces, in that order. -/
def supertypes (c : ClassFile) : List String := c.superClass.toList ++ c.interfaces

/-- The modifiers a class was declared with: its own nested-class entry tells them, where there
is one, better than the flags of the artifact. -/
def declaredAccess (c : ClassFile) : UInt16 :=
  match c.innerClasses.find? fun entry => entry.inner == c.thisClass with
  | some entry => entry.access
  | none => c.access

end ClassFile

end Rebuild.Artifact
