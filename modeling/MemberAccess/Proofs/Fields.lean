import MemberAccess.Class.Declaration

/-!
# What the flags of a field promise

A field is flags, code that reads it and, for some fields, code that writes it. A host never names the three one by
one: each call that adds a field to a class sets them together, and so the flags promise something about the code.

* `FieldCode`: a field by its flags and its code, and `FieldDecl.code`: the one that is declared.
* `FieldDecl.promised`: a constant is read without the host, and what is final has no code that writes it.
* `ClassDecl.Call`: what a host can say about a class, and `code_build`: the fields of a class that is built from calls.
-/

namespace MemberAccess

/-- A field by its flags, the code that reads it and the code that writes it, if there is any. -/
structure FieldCode where
  name : String
  type : Ty
  modifiers : Modifiers
  read : Value → Host Value
  write? : Option (Value → Value → Host Unit)

namespace FieldCode

def isFinal (f : FieldCode) : Bool := f.modifiers.isFinal

def isConstant (f : FieldCode) : Bool := f.modifiers.isEnumConstant || (f.modifiers.isStatic && f.modifiers.isFinal)

/-- A final field refuses to be written. -/
def refuse (f : FieldCode) : Host Unit := Host.fail (.illegalAccess ("field '" ++ f.name ++ "' is final"))

/-- Writes the field: the flags are asked even where there is code for it. -/
def write (f : FieldCode) (target v : Value) : Host Unit :=
  match f.write? with
  | some write => if f.isFinal then f.refuse else write target v
  | none => f.refuse

/-- What the flags promise about the code. -/
structure Promised (f : FieldCode) : Prop where
  /-- a constant is one value for all targets, and reading it does nothing -/
  constant : f.isConstant = true → ∃ v, ∀ target, f.read target = pure v
  final_of_constant : f.isConstant = true → f.isFinal = true
  unwritten : f.isFinal = true → f.write? = none

theorem Promised.write_eq {f : FieldCode} (h : f.Promised) (hfinal : f.isFinal = true) (target v : Value) :
    f.write target v = f.refuse := by
  unfold write
  rw [h.unwritten hfinal]

end FieldCode

namespace FieldDecl

/-- A declared field by its flags and its code. -/
def code (f : FieldDecl) : FieldCode where
  name := f.name
  type := f.type
  modifiers := f.modifiers
  read := f.get
  write? := match f.storage with
    | .cell _ write => some write
    | _ => none

/-- Writing a field is writing by its flags and its code. -/
theorem write_code (f : FieldDecl) : f.code.write = f.set := by
  funext target v
  cases hstorage : f.storage <;> simp [FieldCode.write, FieldCode.isFinal, FieldCode.refuse, code, set, modifiers,
    hstorage, Modifiers.concealed]

/-- **The flags of a declared field keep what they promise.** -/
theorem promised (f : FieldDecl) : f.code.Promised := by
  cases hstorage : f.storage with
  | cell read write =>
    constructor <;> simp [code, FieldCode.isConstant, FieldCode.isFinal, modifiers, hstorage, Modifiers.concealed]
  | readOnly read =>
    constructor <;> simp [code, FieldCode.isConstant, FieldCode.isFinal, modifiers, hstorage, Modifiers.concealed,
      Modifiers.asFinal]
  | constant v | enumConstant v =>
    have hread : ∀ target, f.code.read target = pure v := by
      intro target
      simp [code, get, hstorage]
    refine ⟨fun _ => ⟨v, hread⟩, fun _ => ?_, fun _ => ?_⟩ <;>
      simp [code, FieldCode.isFinal, modifiers, hstorage, Modifiers.asStatic, Modifiers.asFinal,
        Modifiers.asEnumConstant]

end FieldDecl

namespace ClassDecl

/-- What a host can say about a class, one thing after the other. -/
inductive Call where
  | extending (c : ClassId)
  | implementing (c : ClassId)
  | nonPublic
  | addMethod (m : MethodDecl)
  | field (name : String) (type : Ty) (read : Value → Host Value) (write : Value → Value → Host Unit)
  | finalField (name : String) (type : Ty) (read : Value → Host Value)
  | privateField (name : String) (type : Ty) (read : Value → Host Value) (write : Value → Value → Host Unit)
  | constant (name : String) (type : Ty) (v : Value)
  | enumConstant (name : String) (v : Value)
  | construct (params : List Ty) (make : List Value → Host Value)

def call (d : ClassDecl) : Call → ClassDecl
  | .extending c => d.extending c
  | .implementing c => d.implementing c
  | .nonPublic => d.nonPublic
  | .addMethod m => d.addMethod m
  | .field name type read write => d.field name type read write
  | .finalField name type read => d.finalField name type read
  | .privateField name type read write => d.privateField name type read write
  | .constant name type v => d.constant name type v
  | .enumConstant name v => d.enumConstant name v
  | .construct params make => d.construct params make

/-- A class after some calls. -/
def build (d : ClassDecl) (calls : List Call) : ClassDecl := calls.foldl call d

/-- The field that a call adds: its flags, the code that reads it, and the code that writes it. -/
def Call.code? : Call → Option FieldCode
  | field name type read write => some ⟨name, type, .shown, read, some write⟩
  | finalField name type read => some ⟨name, type, Modifiers.shown.asFinal, read, none⟩
  | privateField name type read write => some ⟨name, type, .concealed, read, some write⟩
  | constant name type v => some ⟨name, type, Modifiers.shown.asStatic.asFinal, fun _ => pure v, none⟩
  | enumConstant name v => some ⟨name, v.type, Modifiers.shown.asEnumConstant, fun _ => pure v, none⟩
  | _ => none

theorem code_call (d : ClassDecl) (x : Call) :
    (d.call x).fields.map (·.code) = d.fields.map (·.code) ++ x.code?.toList := by
  cases x with
  | field | finalField | privateField | constant | enumConstant =>
    simp only [call, field, finalField, privateField, constant, enumConstant, addField, List.map_append, Call.code?]
    rfl
  | extending | implementing | nonPublic | addMethod | construct => exact (List.append_nil _).symm

/-- **The fields of a class** are those of the calls that it is built from, in their order. -/
theorem code_build (d : ClassDecl) (calls : List Call) :
    (d.build calls).fields.map (·.code) = d.fields.map (·.code) ++ calls.filterMap (·.code?) := by
  induction calls generalizing d with
  | nil => exact (List.append_nil _).symm
  | cons x rest ih =>
    show ((d.call x).build rest).fields.map (·.code) = _
    rw [ih, code_call, List.append_assoc]
    cases hx : x.code? with
    | none => simp [hx]
    | some f => simp [hx]

end ClassDecl

end MemberAccess
