import ConvexQp.Mat.Basic
/-! The left-hand side of a block of linear constraints: a matrix, or a single row of coefficients
not yet given a shape, which counts as a `1 × n` matrix. -/

namespace ConvexQp

/-- The coefficients of a block of linear constraints. -/
inductive Lhs where
  | matrix (m : Mat)
  | row (xs : Array Float)

namespace Lhs

/-- The number of rows; a row is one. -/
def rows : Lhs → Nat
  | .matrix m => m.rows
  | .row _ => 1

/-- The number of columns; a row has one per coefficient. -/
def cols : Lhs → Nat
  | .matrix m => m.cols
  | .row xs => xs.size

/-- The matrix: a row becomes a `1 × n` matrix in the given storage, and a matrix stays as it is,
whatever the storage asked for. -/
def toMat (l : Lhs) (s : Storage) : Mat :=
  match l with
  | .matrix m => m
  | .row xs => (Mat.dense (Dense.ofRow xs)).toStorage s

@[simp] theorem toMat_matrix (m : Mat) (s : Storage) : (Lhs.matrix m).toMat s = m := rfl

@[simp] theorem rows_toMat (l : Lhs) (s : Storage) : (l.toMat s).rows = l.rows := by
  cases l <;> simp [toMat, rows]

@[simp] theorem cols_toMat (l : Lhs) (s : Storage) : (l.toMat s).cols = l.cols := by
  cases l <;> simp [toMat, cols]

/-- A row takes the storage asked for. -/
@[simp] theorem storage_toMat_row (xs : Array Float) (s : Storage) : ((Lhs.row xs).toMat s).storage = s := by
  simp [toMat]

end Lhs

end ConvexQp
