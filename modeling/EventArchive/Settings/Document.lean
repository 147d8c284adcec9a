import EventArchive.Settings.Value

/-!
# Building a settings file

A settings file is read line by line, and each line adds to the tables that stand already. What a
line may add depends on how a table came to be: a table is opened by a header once; a key with dots
may add to a table that such keys have made, and to none that a header has opened; a value is never
added to.
-/
namespace EventArchive

/-- How a table came to be. -/
inductive TableOrigin where
  /-- A header names a table inside it. -/
  | implied
  /-- A header has opened it. -/
  | opened
  /-- A key with dots goes through it. -/
  | dotted
  deriving DecidableEq, Repr

/-- A part of a file that is being read. -/
inductive DocumentPart where
  | value (setting : Setting)
  | table (origin : TableOrigin) (members : List (String × DocumentPart))
  /-- A list of tables, the latest one first. -/
  | tables (items : List (List (String × DocumentPart)))

namespace DocumentPart

/-- The members of a table. -/
abbrev Members := List (String × DocumentPart)

/-- Replace what stands under a name, or add it. -/
def put (name : String) (d : DocumentPart) : Members → Members
  | [] => [(name, d)]
  | m :: ms => if m.1 = name then (name, d) :: ms else m :: put name d ms

/-- Add a value under a key with dots. Every table on the way is made if it is missing; the last one
has to be one that such keys have made, and none may have been opened by a header. Of a list of
tables the latest one is meant. -/
def insert : (path : List String) → Setting → Members → Option Members
  | [], _, _ => none
  | [name], s, ms => if (ms.lookup name).isSome then none else some (ms ++ [(name, .value s)])
  | name :: next :: path, s, ms =>
    match ms.lookup name with
    | none => do return ms ++ [(name, .table .dotted (← insert (next :: path) s []))]
    | some (.table .dotted inner) => do
      return put name (.table .dotted (← insert (next :: path) s inner)) ms
    | some (.table .implied inner) =>
      if path.isEmpty then none
      else do return put name (.table .implied (← insert (next :: path) s inner)) ms
    | some (.tables (latest :: items)) =>
      if path.isEmpty then none
      else do return put name (.tables ((← insert (next :: path) s latest) :: items)) ms
    | some _ => none

/-- Open the table that a header names. -/
def openTable : (path : List String) → Members → Option Members
  | [], _ => none
  | [name], ms =>
    match ms.lookup name with
    | none => some (ms ++ [(name, .table .opened [])])
    | some (.table .implied inner) => some (put name (.table .opened inner) ms)
    | some _ => none
  | name :: next :: path, ms =>
    match ms.lookup name with
    | none => do return ms ++ [(name, .table .implied (← openTable (next :: path) []))]
    | some (.table origin inner) => do
      return put name (.table origin (← openTable (next :: path) inner)) ms
    | some (.tables (latest :: items)) => do
      return put name (.tables ((← openTable (next :: path) latest) :: items)) ms
    | some _ => none

/-- Begin another table of the list of tables that a header names. -/
def openItem : (path : List String) → Members → Option Members
  | [], _ => none
  | [name], ms =>
    match ms.lookup name with
    | none => some (ms ++ [(name, .tables [[]])])
    | some (.tables items) => some (put name (.tables ([] :: items)) ms)
    | some _ => none
  | name :: next :: path, ms =>
    match ms.lookup name with
    | none => do return ms ++ [(name, .table .implied (← openItem (next :: path) []))]
    | some (.table origin inner) => do
      return put name (.table origin (← openItem (next :: path) inner)) ms
    | some (.tables (latest :: items)) => do
      return put name (.tables ((← openItem (next :: path) latest) :: items)) ms
    | some _ => none

/-- Change the table that was opened last under a path. -/
def within (change : Members → Option Members) : (path : List String) → Members → Option Members
  | [], ms => change ms
  | name :: path, ms =>
    match ms.lookup name with
    | some (.table origin inner) => do
      return put name (.table origin (← within change path inner)) ms
    | some (.tables (latest :: items)) => do
      return put name (.tables ((← within change path latest) :: items)) ms
    | _ => none

/-! ### The finished value -/

mutual

/-- The value that a part stands for. -/
def setting : DocumentPart → Setting
  | .value s => s
  | .table _ ms => .table (settings ms)
  | .tables items => .list (itemSettings items).reverse

/-- The values of the members of a table. -/
def settings : List (String × DocumentPart) → List (String × Setting)
  | [] => []
  | (name, d) :: ms => (name, d.setting) :: settings ms

/-- The values of the tables of a list. -/
def itemSettings : List (List (String × DocumentPart)) → List Setting
  | [] => []
  | ms :: items => .table (settings ms) :: itemSettings items

end

end DocumentPart
end EventArchive
