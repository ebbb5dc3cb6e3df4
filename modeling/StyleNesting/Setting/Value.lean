/-
  StyleNesting/Setting/Value.lean
  ===============================
  **The values of settings**: what can stand on the right-hand side of a setting
  in a configuration, whether it makes sense there or not.
-/
import StyleNesting.Decimal.Double
import StyleNesting.Text.Basic

namespace StyleNesting

/-- A day of the calendar. -/
structure CalendarDate where
  year : Nat
  month : Nat
  day : Nat
deriving DecidableEq, Repr

/-- A time of the day. -/
structure ClockTime where
  hour : Nat
  minute : Nat
  second : Nat
  microsecond : Nat
deriving DecidableEq, Repr

/-- The value of a setting. -/
inductive Value where
  | null
  | bool (b : Bool)
  | int (i : Int)
  | float (x : Double)
  | text (t : Text)
  | date (d : CalendarDate)
  | time (t : ClockTime)
  /-- A day and time; the offset from universal time, in seconds, if there is one. -/
  | dateTime (d : CalendarDate) (t : ClockTime) (offset : Option Int)
  | list (values : List Value)
  | table (entries : List (Text × Value))
deriving Repr

instance : Inhabited Value := ⟨.null⟩

/-- The entries of a table; keys are distinct and stand in the order they were given. -/
abbrev Table := List (Text × Value)

/-- The value of a key. -/
def Table.find? (entries : Table) (key : Text) : Option Value :=
  (List.find? (fun e => e.1 == key) entries).map (·.2)

/-- Give a key that is already there another value. -/
def Table.replace (entries : Table) (key : Text) (v : Value) : Table :=
  List.map (fun e => if e.1 == key then (e.1, v) else e) entries

end StyleNesting
