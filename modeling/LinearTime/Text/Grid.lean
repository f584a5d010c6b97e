/-
  LinearTime.Text.Grid — tables with rounded borders.

  A header row, a rule, and one line per row between a top and a bottom
  border.  A column is as wide as its widest cell; cells are padded on the
  right and have a blank on either side.  Without rows the table ends with
  the rule under the header.

  Core only.
-/

namespace LinearTime.Text.Grid

/-- The width of the widest cell in each column of the header. -/
def widths (header : List String) (rows : List (List String)) : List Nat :=
  header.mapIdx fun i cell =>
    rows.foldl (fun w row => max w ((row[i]?.getD "").length)) cell.length

/-- A cell with a blank on either side, padded to `width`. -/
def cell (width : Nat) (text : String) : String :=
  " " ++ text ++ "".pushn ' ' (width - text.length + 1)

/-- One line of cells. -/
def line (ws : List Nat) (cells : List String) : String :=
  "│" ++ "│".intercalate (List.zipWith cell ws cells) ++ "│"

/-- One horizontal rule with the given ends and crossing. -/
def rule (left crossing right : String) (ws : List Nat) : String :=
  left ++ crossing.intercalate (ws.map fun w => "".pushn '─' (w + 2)) ++ right

/-- The whole table, without a line end after its last line. -/
def render (header : List String) (rows : List (List String)) : String :=
  let ws := widths header rows
  let top := [rule "╭" "┬" "╮" ws, line ws header, rule "├" "┼" "┤" ws]
  let body := rows.map (line ws)
  let bottom := if rows.isEmpty then [] else [rule "╰" "┴" "╯" ws]
  "\n".intercalate (top ++ body ++ bottom)

end LinearTime.Text.Grid
