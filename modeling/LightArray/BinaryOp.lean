import LightArray.Mean
import LightArray.NdimLimit
import LightArray.ZipMap

/-! The arithmetic operators (`python.rs`): the dispatch on the operands and on reflection, the
methods of the array type and the module-level functions. -/
namespace LightArray
open MachineWord

/-- A Python object next to an operator. `other` is one `classify` makes nothing of, with what
`numpy_handles` says of it. -/
inductive PyOperand (F : Type)
  | array (a : AnyArray F)
  | float (v : F)
  | int (i : ℤ)
  | bool (b : Bool)
  | other (numpy : Bool)

/-- What `classify` finds. -/
inductive Operand (F : Type)
  | f64 (a : NdArray .float64 F)
  | alt (a : AnyArray F)
  | float (v : F)
  | int (i : ℤ)
  | bool (b : Bool)
  | other

/-- What an operator gives back: an array, a call of NumPy's ufunc, or `NotImplemented`. -/
inductive BinaryResult (F : Type)
  | native (a : AnyArray F)
  | numpy (name : String) (x1 x2 : PyOperand F)
  | notImplemented

/-- The float64 operations behind the operators. -/
structure FloatArith (F : Type) where
  add : F → F → F
  sub : F → F → F
  mul : F → F → F
  div : F → F → F
  floorDiv : F → F → F
  mod : F → F → F
  pow : F → F → F

/-- Element-wise operation on equal shapes; the caller falls back when they differ. -/
def NdArray.zipInt (a b : NdArray .int64 ℤ) (f : ℤ → ℤ → ℤ) : Option (NdArray .int64 ℤ) :=
  if a.dims ≠ b.dims then none else some ⟨a.dims, List.zipWith f a.data b.data⟩

def NdArray.mapInt (a : NdArray .int64 ℤ) (f : ℤ → ℤ) : NdArray .int64 ℤ := ⟨a.dims, a.data.map f⟩

def wrappingAdd (a b : ℤ) : ℤ := wrapIsize (a+b)

def wrappingSub (a b : ℤ) : ℤ := wrapIsize (a-b)

def wrappingMul (a b : ℤ) : ℤ := wrapIsize (a*b)

variable {F : Type} (ofInt : ℤ → F)

/-- The elements as float64; `ofInt` is the conversion `as f64`. -/
def AnyArray.floatData : AnyArray F → List F
  | .f64 _ data => data
  | .i64 _ data => data.map ofInt
  | .bool _ data => data.map fun b => ofInt b.toInt

/-- `to_f64`, a copy in a buffer of its own. -/
def AnyArray.toArrayF64 (a : AnyArray F) : Except Failure (NdArray .float64 F) := do
  withCapacity .float64 (a.floatData ofInt).length
  .ok ⟨⟨a.shape, _, a.inner.ndim_le, rfl⟩, a.floatData ofInt⟩

/-- `classify`. A Python int beyond int64 becomes a float if it can. -/
def classify : PyOperand F → Operand F
  | .array (.f64 dims data) => .f64 ⟨dims, data⟩
  | .array a => .alt a
  | .float v => .float v
  | .bool b => .bool b
  | .int i =>
    if -(2^63) ≤ i ∧ i < 2^63 then .int i
    else
      match extractFloat ofInt i with
      | .ok v => .float v
      | .error _ => .other
  | .other _ => .other

/-- The operand as a float64 scalar, if it is a scalar at all. -/
def Operand.scalar : Operand F → Option F
  | .float v => some v
  | .int i => some (ofInt i)
  | .bool b => some (ofInt b.toInt)
  | _ => none

def Operand.isFloat : Operand F → Bool
  | .float _ => true
  | .f64 _ => true
  | _ => false

/-- Does NumPy know how to combine with this object? -/
def numpyHandles : PyOperand F → Bool
  | .array _ => true
  | .other numpy => numpy
  | _ => false

def numpyBinary (slf : AnyArray F) (other : PyOperand F) (reflected : Bool) (name : String) : BinaryResult F :=
  if reflected then .numpy name other (.array slf) else .numpy name (.array slf) other

/-- `PyArray::new` of a float64 result. -/
def nativeF64 (a : NdArray .float64 F) : BinaryResult F := .native (.f64 a.dims a.data)

/-- Integer arithmetic that cannot fail. -/
def intOp : String → Option (ℤ → ℤ → ℤ)
  | "add" => some wrappingAdd
  | "subtract" => some wrappingSub
  | "multiply" => some wrappingMul
  | _ => none

/-- Binary operation whose left operand is an int64 or bool array. -/
def altBinary (slf : AnyArray F) (other : PyOperand F) (operand : Operand F) (reflected : Bool) (name : String)
    (f : F → F → F) : Except Failure (BinaryResult F) :=
  match operand with
  | .other => .ok (if numpyHandles other then numpyBinary slf other reflected name else .notImplemented)
  | _ =>
    -- a float on the other side, or true division: the result is float64
    if name == "divide" || operand.isFloat then do
      let a ← slf.toArrayF64 ofInt
      match operand with
      | .f64 b =>
        let r ← if reflected then NdArray.zipMap f b a else NdArray.zipMap f a b
        .ok (nativeF64 r)
      | .alt b =>
        let b ← b.toArrayF64 ofInt
        let r ← if reflected then NdArray.zipMap f b a else NdArray.zipMap f a b
        .ok (nativeF64 r)
      | scalar =>
        match scalar.scalar ofInt with
        | some s => .ok (nativeF64 (if reflected then a.map fun x => f s x else a.map fun x => f x s))
        | none => .error (.panic "remaining variants are scalars")
    else
      let result : Option (NdArray .int64 ℤ) :=
        match intOp name, slf with
        | some op, .i64 dims data =>
          let a : NdArray .int64 ℤ := ⟨dims, data⟩
          match operand with
          | .int i => some (a.mapInt fun x => if reflected then op i x else op x i)
          | .alt (.i64 dims' data') =>
            let b : NdArray .int64 ℤ := ⟨dims', data'⟩
            if reflected then b.zipInt a op else a.zipInt b op
          | _ => none
        | _, _ => none
      match result with
      | some r => .ok (.native (.i64 r.dims r.data))
      -- everything else follows NumPy exactly
      | none => .ok (numpyBinary slf other reflected name)

/-- Apply `f` element-wise for `self OP other`, or `other OP self` when `reflected` is set. -/
def binaryOp (slf : AnyArray F) (other : PyOperand F) (reflected : Bool) (name : String) (f : F → F → F) :
    Except Failure (BinaryResult F) :=
  let operand := classify ofInt other
  match slf with
  | .f64 dims data =>
    let a : NdArray .float64 F := ⟨dims, data⟩
    match operand with
    | .f64 b => do
      let r ← if reflected then NdArray.zipMap f b a else NdArray.zipMap f a b
      .ok (nativeF64 r)
    | .alt b => do
      let b ← b.toArrayF64 ofInt
      let r ← if reflected then NdArray.zipMap f b a else NdArray.zipMap f a b
      .ok (nativeF64 r)
    | .other => .ok (if numpyHandles other then numpyBinary slf other reflected name else .notImplemented)
    | scalar =>
      match scalar.scalar ofInt with
      | some s => .ok (nativeF64 (if reflected then a.map fun x => f s x else a.map fun x => f x s))
      | none => .error (.panic "remaining variants are scalars")
  | _ => altBinary ofInt slf other operand reflected name f

namespace AnyArray

variable (ops : FloatArith F) (slf : AnyArray F) (other : PyOperand F)

/-- `__add__`, and so on; the reflected methods have an `r`. -/
def add : Except Failure (BinaryResult F) := binaryOp ofInt slf other false "add" ops.add

def radd : Except Failure (BinaryResult F) := binaryOp ofInt slf other true "add" ops.add

def sub : Except Failure (BinaryResult F) := binaryOp ofInt slf other false "subtract" ops.sub

def rsub : Except Failure (BinaryResult F) := binaryOp ofInt slf other true "subtract" ops.sub

def mul : Except Failure (BinaryResult F) := binaryOp ofInt slf other false "multiply" ops.mul

def rmul : Except Failure (BinaryResult F) := binaryOp ofInt slf other true "multiply" ops.mul

def truediv : Except Failure (BinaryResult F) := binaryOp ofInt slf other false "divide" ops.div

def rtruediv : Except Failure (BinaryResult F) := binaryOp ofInt slf other true "divide" ops.div

def floordiv : Except Failure (BinaryResult F) := binaryOp ofInt slf other false "floor_divide" ops.floorDiv

def rfloordiv : Except Failure (BinaryResult F) := binaryOp ofInt slf other true "floor_divide" ops.floorDiv

def mod : Except Failure (BinaryResult F) := binaryOp ofInt slf other false "remainder" ops.mod

def rmod : Except Failure (BinaryResult F) := binaryOp ofInt slf other true "remainder" ops.mod

def pow (modulo : Option (PyOperand F)) : Except Failure (BinaryResult F) :=
  if modulo.isSome then .error (.python .typeError "pow() with modulus is not supported")
  else binaryOp ofInt slf other false "power" ops.pow

def rpow (modulo : Option (PyOperand F)) : Except Failure (BinaryResult F) :=
  if modulo.isSome then .error (.python .typeError "pow() with modulus is not supported")
  else binaryOp ofInt slf other true "power" ops.pow

end AnyArray

/-- The `f` of `operator_function`. -/
def operatorArith (ops : FloatArith F) : String → Option (F → F → F)
  | "add" => some ops.add
  | "subtract" => some ops.sub
  | "multiply" => some ops.mul
  | "divide" => some ops.div
  | "true_divide" => some ops.div
  | "floor_divide" => some ops.floorDiv
  | "remainder" => some ops.mod
  | "mod" => some ops.mod
  | "power" => some ops.pow
  | _ => none

def operatorUfunc : String → String
  | "true_divide" => "divide"
  | "mod" => "remainder"
  | other => other

/-- The result, unless it is `NotImplemented`. -/
def BinaryResult.handled : BinaryResult F → Option (BinaryResult F)
  | .notImplemented => none
  | result => some result

/-- `add(x1, x2)` and the other operator functions; `none` leaves the call to NumPy. -/
def operatorFunction (ops : FloatArith F) (name : String) (x1 x2 : PyOperand F) : Except Failure (Option (BinaryResult F)) :=
  match operatorArith ops name with
  | none => .ok none
  | some f =>
    match x1, x2 with
    | .array a, x2 => do
      let result ← binaryOp ofInt a x2 false (operatorUfunc name) f
      .ok result.handled
    | x1, .array b => do
      let result ← binaryOp ofInt b x1 true (operatorUfunc name) f
      .ok result.handled
    | _, _ => .ok none

end LightArray
