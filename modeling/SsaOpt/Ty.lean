/-!
# Scalar types

The types of values. A type is known by its name: the thirteen scalar types of the language, or some
other name that stands for no known type. The constructor for other names carries a proof that its
name is none of the thirteen, so that two types are equal exactly when their names are
(`Ty.name_injective`).
-/

namespace SsaOpt

/-- The widths of the integer types. -/
inductive Width where
  | w8
  | w16
  | w32
  | w64
deriving DecidableEq, Repr

/-- The number of bits of a width. -/
def Width.bits : Width → Nat
  | .w8 => 8
  | .w16 => 16
  | .w32 => 32
  | .w64 => 64

/-- A fixed-width integer type. -/
structure IntType where
  signed : Bool
  width : Width
deriving DecidableEq, Repr

/-- The number of bits of an integer type. -/
def IntType.bits (t : IntType) : Nat := t.width.bits

/-- The name of an integer type. -/
def IntType.name : IntType → String
  | ⟨true, .w8⟩ => "i8"
  | ⟨true, .w16⟩ => "i16"
  | ⟨true, .w32⟩ => "i32"
  | ⟨true, .w64⟩ => "i64"
  | ⟨false, .w8⟩ => "u8"
  | ⟨false, .w16⟩ => "u16"
  | ⟨false, .w32⟩ => "u32"
  | ⟨false, .w64⟩ => "u64"

/-- The names of the scalar types, in a fixed order. -/
def scalarNames : List String :=
  ["i8", "i16", "i32", "i64", "u8", "u16", "u32", "u64", "f32", "f64", "bool", "void", "ptr"]

/-- A type of the language. -/
inductive Ty where
  /-- A fixed-width integer. -/
  | int (t : IntType)
  | f32
  | f64
  | bool
  /-- The type of nothing. -/
  | void
  /-- An opaque pointer. -/
  | ptr
  /-- A name that no scalar type has. -/
  | other (name : String) (isOther : name ∉ scalarNames)
deriving DecidableEq

namespace Ty

/-- The name of a type. -/
def name : Ty → String
  | int t => t.name
  | f32 => "f32"
  | f64 => "f64"
  | bool => "bool"
  | void => "void"
  | ptr => "ptr"
  | other n _ => n

/-- The scalar types, in the order of their names. -/
def scalars : List Ty :=
  [int ⟨true, .w8⟩, int ⟨true, .w16⟩, int ⟨true, .w32⟩, int ⟨true, .w64⟩,
    int ⟨false, .w8⟩, int ⟨false, .w16⟩, int ⟨false, .w32⟩, int ⟨false, .w64⟩,
    f32, f64, bool, void, ptr]

theorem map_name_scalars : scalars.map name = scalarNames := rfl

/-- The scalar type of a name. -/
def scalar? (n : String) : Option Ty := scalars.find? fun t => t.name = n

theorem not_mem_scalarNames_of_scalar? {n : String} (h : scalar? n = none) :
    n ∉ scalarNames := by
  rw [← map_name_scalars, List.mem_map]
  rintro ⟨t, ht, rfl⟩
  simpa using List.find?_eq_none.1 h t ht

/-- The type of a name, whatever the name. -/
def named (n : String) : Ty :=
  match h : scalar? n with
  | some t => t
  | none => other n (not_mem_scalarNames_of_scalar? h)

/-- The type that stands for every unknown name in a module. -/
def unknown : Ty := other "unknown" (by decide)

/-- The type a name denotes in a module: a scalar type, or the unknown type. -/
def ofName (n : String) : Ty := (scalar? n).getD unknown

theorem mem_scalars_or_other (t : Ty) : t ∈ scalars ∨ ∃ n h, t = other n h := by
  rcases t with ⟨s, w⟩ | _ | _ | _ | _ | _ | ⟨n, h⟩
  · cases s <;> cases w <;> exact Or.inl (by decide)
  · exact Or.inl (by decide)
  · exact Or.inl (by decide)
  · exact Or.inl (by decide)
  · exact Or.inl (by decide)
  · exact Or.inl (by decide)
  · exact Or.inr ⟨n, h, rfl⟩

theorem eq_of_name_eq_of_mem : ∀ t ∈ scalars, ∀ u ∈ scalars, t.name = u.name → t = u := by
  decide

/-- A type is known by its name. -/
theorem name_injective {t u : Ty} (h : t.name = u.name) : t = u := by
  rcases mem_scalars_or_other t with ht | ⟨n, hn, rfl⟩ <;>
    rcases mem_scalars_or_other u with hu | ⟨m, hm, rfl⟩
  · exact eq_of_name_eq_of_mem t ht u hu h
  · exact absurd (map_name_scalars ▸ List.mem_map_of_mem ht) (h ▸ hm)
  · exact absurd (map_name_scalars ▸ List.mem_map_of_mem hu) (h ▸ hn)
  · cases h
    rfl

/-- The size of a value in bytes, `-1` when it is not known. -/
def size : Ty → Int
  | int t => t.bits / 8
  | f32 => 4
  | f64 => 8
  | bool => 1
  | void => 0
  | ptr => 8
  | other _ _ => -1

/-- The number of bits of a number of the type, `0` for what is no number. -/
def bits : Ty → Nat
  | int t => t.bits
  | f32 => 32
  | f64 => 64
  | _ => 0

/-- A signed integer type. -/
def isSigned : Ty → Bool
  | int t => t.signed
  | _ => false

/-- An unsigned integer type. -/
def isUnsigned : Ty → Bool
  | int t => !t.signed
  | _ => false

/-- An integer type. -/
def isInteger : Ty → Bool
  | int _ => true
  | _ => false

/-- A floating-point type. -/
def isFloat : Ty → Bool
  | f32 => true
  | f64 => true
  | _ => false

/-- Whether a value of type `t` converts to type `u`: integers convert among each other, `bool`
widens to any integer, and every type converts to itself. -/
def canCast (t u : Ty) : Bool :=
  t = u || match t, u with
    | int _, int _ => true
    | bool, int _ => true
    | _, _ => false

end Ty

/-- Conversion between types that may be missing: a missing type converts to nothing. -/
def canCast : Option Ty → Option Ty → Bool
  | some t, some u => t.canCast u
  | _, _ => false

/-- The name of a type that may be missing; nothing is `void`. -/
def typeName : Option Ty → String
  | some t => t.name
  | none => "void"

end SsaOpt
