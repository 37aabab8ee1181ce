/-!
# TOML tables

The content of a TOML document: tables of items under keys. A table remembers how it came about, because that decides
whether a later header or dotted key may add to it: a table opened by a header takes no dotted keys from elsewhere, and
one opened by dotted keys takes no header. An inline table is closed once it is written.
-/

namespace LiveBindings.Toml

/-- A scalar. Only the content of texts and integers is kept. -/
inductive Scalar
  | text (s : String)
  | integer (n : Int)
  | boolean
  | float
  | time
deriving DecidableEq

/-- How a table came about. -/
inductive Origin
  /-- By a header, or as the top of the document. -/
  | header
  /-- On the way to a table with a header. -/
  | implied
  /-- By a dotted key. -/
  | dotted
  /-- Written inline. -/
  | inline
deriving DecidableEq

inductive Item
  | scalar (s : Scalar)
  | array (items : List Item)
  | table (origin : Origin) (entries : List (String × Item))
  /-- The tables of a repeated header, the latest first. -/
  | tables (all : List (List (String × Item)))

/-- The entries of a table. -/
abbrev Entries := List (String × Item)

def lookup (key : String) (es : Entries) : Option Item := (es.find? (·.1 == key)).map (·.2)

/-- Replaces the item under a key, or adds it at the end. -/
def put (key : String) (item : Item) : Entries → Entries
  | [] => [(key, item)]
  | (k, i) :: es => if k = key then (key, item) :: es else (k, i) :: put key item es

/-- Changes the table reached by a path of a header; tables on the way are implied. -/
def within (path : List String) (f : Entries → Option Entries) (es : Entries) : Option Entries :=
  match path with
  | [] => f es
  | key :: path =>
    match lookup key es with
    | none => do some (put key (.table .implied (← within path f [])) es)
    | some (.table .inline _) => none
    | some (.table origin inner) => do some (put key (.table origin (← within path f inner)) es)
    | some (.tables (inner :: others)) => do some (put key (.tables ((← within path f inner) :: others)) es)
    | some _ => none

/-- Opens the table of a header: it may be new, or implied by an earlier header. -/
def openTable (key : String) (es : Entries) : Option Entries :=
  match lookup key es with
  | none => some (put key (.table .header []) es)
  | some (.table .implied inner) => some (put key (.table .header inner) es)
  | some _ => none

/-- Opens one more table of a repeated header. -/
def openNext (key : String) (es : Entries) : Option Entries :=
  match lookup key es with
  | none => some (put key (.tables [[]]) es)
  | some (.tables all) => some (put key (.tables ([] :: all)) es)
  | some _ => none

/-- Adds an item under a dotted key to a table. Tables on the way are new or came from dotted keys; the last key is new. -/
def insert (item : Item) : List String → Entries → Option Entries
  | [], _ => none
  | [key], es => if (lookup key es).isSome then none else some (put key item es)
  | key :: path, es =>
    match lookup key es with
    | none => do some (put key (.table .dotted (← insert item path [])) es)
    | some (.table .dotted inner) => do some (put key (.table .dotted (← insert item path inner)) es)
    | some _ => none

end LiveBindings.Toml
