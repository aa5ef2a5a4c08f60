import MemberAccess.Class.Member
import MemberAccess.Text.Split

/-!
# Classes

A host describes a class with a `ClassDecl`, built up by the functions of its namespace; a registry
gives it an identity and keeps it as a `ClassDef`.
-/

namespace MemberAccess

/-- `package.Name`, or the name alone in the default package. -/
def qualify (package name : String) : String :=
  if package = "" then name else package ++ "." ++ name

/-- A class as a host describes it. -/
structure ClassDecl where
  package : String
  name : String
  isPublic : Bool := true
  isInterface : Bool := false
  superclass : Option ClassId := none
  interfaces : List ClassId := []
  methods : List MethodDecl := []
  fields : List FieldDecl := []
  constructors : List ConstructorDecl := []

namespace ClassDecl

/-- A public class; what stands before the last point of its name is the package. -/
def ofName (qualified : String) : ClassDecl :=
  match Text.splitLast '.' qualified with
  | some (package, name) => { package, name }
  | none => { package := "", name := qualified }

/-- A public interface. -/
def interface (qualified : String) : ClassDecl := { ofName qualified with isInterface := true }

def qualifiedName (d : ClassDecl) : String := qualify d.package d.name

def extending (d : ClassDecl) (c : ClassId) : ClassDecl := { d with superclass := some c }

def implementing (d : ClassDecl) (c : ClassId) : ClassDecl :=
  { d with interfaces := d.interfaces ++ [c] }

def nonPublic (d : ClassDecl) : ClassDecl := { d with isPublic := false }

def addMethod (d : ClassDecl) (m : MethodDecl) : ClassDecl := { d with methods := d.methods ++ [m] }

/-- Adds a public method of instances. -/
def method (d : ClassDecl) (name : String) (params : List Ty) (returns : Ty) (body : Body) : ClassDecl :=
  d.addMethod ⟨name, params, returns, .shown, body⟩

/-- Adds a public static method; the target of a call is passed to it all the same. -/
def staticMethod (d : ClassDecl) (name : String) (params : List Ty) (returns : Ty) (body : Body) :
    ClassDecl :=
  d.addMethod ⟨name, params, returns, Modifiers.shown.asStatic, body⟩

/-- Adds a method of instances that is not public. -/
def privateMethod (d : ClassDecl) (name : String) (params : List Ty) (returns : Ty) (body : Body) :
    ClassDecl :=
  d.addMethod ⟨name, params, returns, .concealed, body⟩

def addField (d : ClassDecl) (f : FieldDecl) : ClassDecl := { d with fields := d.fields ++ [f] }

/-- Adds a public field that can change. -/
def field (d : ClassDecl) (name : String) (type : Ty) (read : Value → Host Value)
    (write : Value → Value → Host Unit) : ClassDecl :=
  d.addField ⟨name, type, true, .cell read write⟩

/-- Adds a public final field. -/
def finalField (d : ClassDecl) (name : String) (type : Ty) (read : Value → Host Value) : ClassDecl :=
  d.addField ⟨name, type, true, .readOnly read⟩

/-- Adds a field that can change and is not public. -/
def privateField (d : ClassDecl) (name : String) (type : Ty) (read : Value → Host Value)
    (write : Value → Value → Host Unit) : ClassDecl :=
  d.addField ⟨name, type, false, .cell read write⟩

/-- Adds a public static final field. -/
def constant (d : ClassDecl) (name : String) (type : Ty) (v : Value) : ClassDecl :=
  d.addField ⟨name, type, true, .constant v⟩

/-- Adds an enum constant, which has the type of its value. -/
def enumConstant (d : ClassDecl) (name : String) (v : Value) : ClassDecl :=
  d.addField ⟨name, v.type, true, .enumConstant v⟩

/-- Adds a public constructor. -/
def construct (d : ClassDecl) (params : List Ty) (make : List Value → Host Value) : ClassDecl :=
  { d with constructors := d.constructors ++ [⟨params, .shown, make⟩] }

end ClassDecl

/-- A registered class, interface or array class. An array class has a component and no members. -/
structure ClassDef where
  id : ClassId
  package : String
  name : String
  isPublic : Bool
  isInterface : Bool
  superclass : Option ClassId
  interfaces : List ClassId
  methods : List Method
  fields : List Field
  constructors : List Constructor
  component : Option Ty

namespace ClassDef

def qualifiedName (d : ClassDef) : String := qualify d.package d.name

def isArray (d : ClassDef) : Bool := d.component.isSome

/-- A declared class at its place in the registry. A class without a superclass extends the root. -/
def ofDecl (id : ClassId) (d : ClassDecl) : ClassDef where
  id := id
  package := d.package
  name := d.name
  isPublic := d.isPublic
  isInterface := d.isInterface
  superclass :=
    if d.superclass.isNone && !d.isInterface && id ≠ .object then some .object else d.superclass
  interfaces := d.interfaces
  methods := d.methods.mapIdx fun i m => { m with id := ⟨id, i⟩ }
  fields := d.fields.mapIdx fun i f => { f with id := ⟨id, i⟩ }
  constructors := d.constructors.mapIdx fun i c => { c with id := ⟨id, i⟩ }
  component := none

/-- The class of arrays with some component. -/
def ofArray (id : ClassId) (name : String) (component : Ty) : ClassDef where
  id := id
  package := ""
  name := name
  isPublic := true
  isInterface := false
  superclass := some .object
  interfaces := []
  methods := []
  fields := []
  constructors := []
  component := some component

end ClassDef

end MemberAccess
