import AndOrFlow.Word

/-!
# Element types

Only the width of an element in bytes matters here: it turns an element count into a buffer size.
-/
namespace AndOrFlow

inductive Element where
  | bool | i8 | u8 | i16 | i32 | i64 | f16 | bf16 | f32 | f64
  deriving DecidableEq

namespace Element

/-- Every element type once, in order. -/
def all : List Element := [bool, i8, u8, i16, i32, i64, f16, bf16, f32, f64]

theorem mem_all (e : Element) : e ∈ all := by cases e <;> decide

/-- The element type of a buffer for which none is named. -/
def standard : Element := f32

def name : Element → String
  | bool => "bool"
  | i8 => "i8"
  | u8 => "u8"
  | i16 => "i16"
  | i32 => "i32"
  | i64 => "i64"
  | f16 => "f16"
  | bf16 => "bf16"
  | f32 => "f32"
  | f64 => "f64"

/-- Bytes of one element. -/
def width : Element → Nat
  | bool | i8 | u8 => 1
  | i16 | f16 | bf16 => 2
  | i32 | f32 => 4
  | i64 | f64 => 8

theorem width_pos (e : Element) : 0 < e.width := by cases e <;> decide

/-- Bytes of a buffer of `count` elements. -/
def sizeOf (e : Element) (count : Nat) : Checked Nat := Word.mul count e.width

instance : Ord Element where
  compare a b := compare (all.idxOf a) (all.idxOf b)

def ofName? (name : String) : Option Element := all.find? (fun e => e.name == name)

end Element

/-- Scalar types of a host program that have an element type. -/
inductive Scalar where
  | bool | i8 | i16 | i32 | i64 | u8 | f32 | f64
  deriving DecidableEq

def Scalar.element : Scalar → Element
  | .bool => .bool
  | .i8 => .i8
  | .i16 => .i16
  | .i32 => .i32
  | .i64 => .i64
  | .u8 => .u8
  | .f32 => .f32
  | .f64 => .f64

end AndOrFlow
