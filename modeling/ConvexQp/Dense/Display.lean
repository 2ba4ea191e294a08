import ConvexQp.Dense.Basic
import ConvexQp.Decimal.Scientific
/-! A one-glance text of a dense matrix: its four corners in scientific notation with three places,
an ellipsis for what lies between, and the size. -/

namespace ConvexQp

namespace Dense

/-- An entry as it stands in the text of a matrix: scientific notation with three places. -/
def cornerText (x : Float) : String := Decimal.scientific 3 x

/-- One row of the text: the first entry, an ellipsis when more than two columns lie between, and
the last entry when there are two columns or more. -/
def cornerRow (a : Dense) (r : Nat) : String :=
  cornerText (a.entry r 0) ++ (if 2 < a.cols then " ..." else "") ++
    (if 1 < a.cols then " " ++ cornerText (a.entry r (a.cols - 1)) else "")

/-- The text of a matrix: `[ ]` when it has no entries; else the first row's corners, a line `...`
when more than two rows lie between, and the last row's corners when there are two rows or more,
closed by ` ]`. The size `(rows x cols)` follows. -/
def display (a : Dense) : String :=
  let body :=
    if a.rows = 0 ∨ a.cols = 0 then "[ ]"
    else
      "[ " ++ a.cornerRow 0 ++ (if 2 < a.rows then "\n  ..." else "") ++
        (if 1 < a.rows then "\n  " ++ a.cornerRow (a.rows - 1) else "") ++ " ]"
  body ++ " (" ++ String.ofList (Decimal.numeral a.rows) ++ " x " ++ String.ofList (Decimal.numeral a.cols) ++ ")"

end Dense

end ConvexQp
