/-!
# Types

Values are void, integers and floats of fixed width, pointers, and named structures with
ordered elements. A structure is printed by its name alone; equality compares the
elements too.
-/

namespace RegIR

/-- The type of a value. -/
inductive Ty where
  | void
  | i8
  | i16
  | i32
  | i64
  | f32
  | f64
  | pointer (base : Ty)
  | struct (name : String) (elements : List Ty)
deriving Repr

namespace Ty

/-- The type as it is written in IR text. -/
def text : Ty → String
  | void => "void"
  | i8 => "i8"
  | i16 => "i16"
  | i32 => "i32"
  | i64 => "i64"
  | f32 => "f32"
  | f64 => "f64"
  | pointer base => base.text ++ "*"
  | struct name _ => "%" ++ name

def isInteger : Ty → Bool
  | i8 | i16 | i32 | i64 => true
  | _ => false

def isFloat : Ty → Bool
  | f32 | f64 => true
  | _ => false

def isPointer : Ty → Bool
  | pointer _ => true
  | _ => false

/-- What a pointer points to. -/
def base? : Ty → Option Ty
  | pointer base => some base
  | _ => none

/-! ### Decidable equality -/

mutual

/-- Equality of types is decided structurally. -/
def decideEq : (a b : Ty) → Decidable (a = b)
  | void, b => by cases b <;> first | exact isTrue rfl | exact isFalse nofun
  | i8, b => by cases b <;> first | exact isTrue rfl | exact isFalse nofun
  | i16, b => by cases b <;> first | exact isTrue rfl | exact isFalse nofun
  | i32, b => by cases b <;> first | exact isTrue rfl | exact isFalse nofun
  | i64, b => by cases b <;> first | exact isTrue rfl | exact isFalse nofun
  | f32, b => by cases b <;> first | exact isTrue rfl | exact isFalse nofun
  | f64, b => by cases b <;> first | exact isTrue rfl | exact isFalse nofun
  | pointer a, pointer b =>
      match decideEq a b with
      | isTrue h => isTrue (congrArg pointer h)
      | isFalse h => isFalse fun e => h (pointer.inj e)
  | pointer _, void | pointer _, i8 | pointer _, i16 | pointer _, i32 | pointer _, i64
  | pointer _, f32 | pointer _, f64 | pointer _, struct _ _ => isFalse nofun
  | struct m as, struct n bs =>
      if hm : m = n then
        match decideEqList as bs with
        | isTrue h => isTrue (hm ▸ h ▸ rfl)
        | isFalse h => isFalse fun e => h (struct.inj e).2
      else
        isFalse fun e => hm (struct.inj e).1
  | struct _ _, void | struct _ _, i8 | struct _ _, i16 | struct _ _, i32 | struct _ _, i64
  | struct _ _, f32 | struct _ _, f64 | struct _ _, pointer _ => isFalse nofun

/-- Equality of element lists. -/
def decideEqList : (as bs : List Ty) → Decidable (as = bs)
  | [], [] => isTrue rfl
  | [], _ :: _ => isFalse (by simp)
  | _ :: _, [] => isFalse (by simp)
  | a :: as, b :: bs =>
      match decideEq a b, decideEqList as bs with
      | isTrue h, isTrue hs => isTrue (h ▸ hs ▸ rfl)
      | isFalse h, _ => isFalse fun e => h (List.cons.inj e).1
      | _, isFalse hs => isFalse fun e => hs (List.cons.inj e).2

end

instance : DecidableEq Ty := decideEq

end Ty

end RegIR
