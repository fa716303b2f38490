import SsaOpt.Toml.Parser

/-!
# Documents

A document is the tree of tables that its statements build up, with the keys in the order in which
they are mentioned.

A key may be given a value once. Tables that come into being on the way to a key are implicit and
may be opened once later on, and a table that has been mentioned as part of a longer key may always
be extended that way. Where a longer key goes through an array, a table takes the place of the
array.
-/

namespace SsaOpt.Toml

/-- What a key stands for. -/
inductive Node where
  | value (e : Expr)
  | table (entries : List (String × Node))
  /-- An array of tables, the one that is open last. -/
  | tables (elements : List (List (String × Node)))

/-- A table. -/
abbrev Table := List (String × Node)

namespace Table

/-- Gives a key a value in the place of the former one, or at the end. -/
def put (t : Table) (key : String) (node : Node) : Table :=
  if (t.lookup key).isSome then t.map fun e => if e.1 = key then (key, node) else e
  else t ++ [(key, node)]

/-- The table at a path. In an array of tables it is the last one. -/
def find? : Key → Table → Option Table
  | [], t => some t
  | k :: path, t =>
    match t.lookup k with
    | some (.table u) => find? path u
    | some (.tables us) => us.getLast?.bind (find? path)
    | _ => none

/-- Changes the table at a path. -/
def modify? (f : Table → Table) : Key → Table → Option Table
  | [], t => some (f t)
  | k :: path, t =>
    match t.lookup k with
    | some (.table u) => (modify? f path u).map fun u => t.put k (.table u)
    | some (.tables us) => do
      let last ← us.getLast?
      let u ← modify? f path last
      some (t.put k (.tables (us.dropLast ++ [u])))
    | _ => none

/-- Puts a value at a path and makes the tables on the way. -/
def insert? (key : String) (node : Node) : Key → Table → Option Table
  | [], t => some (t.put key node)
  | k :: path, t =>
    match t.lookup k with
    | none => (insert? key node path []).map fun u => t.put k (.table u)
    | some (.table u) => (insert? key node path u).map fun u => t.put k (.table u)
    | some _ => none

end Table

/-- A document. -/
structure Document where
  root : Table := []
  /-- The keys in the order in which they are mentioned. -/
  mentioned : List Key := []
  /-- The tables that may still be opened. -/
  implicit : List Key := []
  /-- The keys that stand for arrays. -/
  arrays : List Key := []

namespace Document

/-- Records a mention of a key. -/
def mention (doc : Document) (key : Key) : Document :=
  { doc with mentioned := doc.mentioned ++ [key] }

/-- Allows a table to be opened. -/
def allow (doc : Document) (path : Key) : Document := { doc with implicit := path :: doc.implicit }

/-- Forbids a table to be opened. -/
def forbid (doc : Document) (path : Key) : Document :=
  { doc with implicit := doc.implicit.filter fun p => p ≠ path }

/-- Records whether a key stands for an array. The empty key stands for the table it is in. -/
def setArray (doc : Document) (context : Key) (key : String) (isArray : Bool) : Document :=
  let path := if key ≠ "" then context ++ [key] else if context = [] then [""] else context
  let others := doc.arrays.filter fun p => p ≠ path
  { doc with arrays := if isArray then path :: others else others }

/-- Gives a key of a table a value. A key that has one must be implicit: then an array gives way to
the new value, and a table stays as it is. -/
def define? (doc : Document) (context : Key) (key : String) (node : Node) : Option Document := do
  let t ← doc.root.find? context
  let path := context ++ [key]
  if (t.lookup key).isNone then
    let root ← doc.root.modify? (fun t => t.put key node) context
    some { doc with root }
  else if !doc.implicit.contains path then none
  else if doc.arrays.contains path then
    let root ← doc.root.modify? (fun t => t.put key node) context
    some { doc.forbid path with root }
  else some (doc.forbid path)

/-- Makes the tables on a path that are missing; `done` is the part that is there. -/
def addParents? : Key → Key → Document → Option Document
  | _, [], doc => some doc
  | done, k :: rest, doc => do
    let t ← doc.root.find? done
    let path := done ++ [k]
    match t.lookup k with
    | none =>
      let root ← doc.root.modify? (fun t => t.put k (.table [])) done
      addParents? path rest { doc.allow path with root }
    | some (.value _) => none
    | some _ => addParents? path rest doc

/-- Opens a table, or a new one at the end of an array of tables. -/
def enter? (doc : Document) (inArray : Bool) (path : Key) : Option Document := do
  let context := path.dropLast
  let key ← path.getLast?
  let doc ← addParents? [] context doc
  if inArray then
    let t ← doc.root.find? context
    let tables ← match t.lookup key with
      | none => some [[]]
      | some (.tables us) => some (us ++ [[]])
      | some _ => none
    let root ← doc.root.modify? (fun t => t.put key (.tables tables)) context
    some { doc with root }
  else doc.define? context key (.table [])

/-- Opens the tables of a key with several parts, one within the other. -/
def enterParts? : Key → Key → Document → Option Document
  | _, [], doc => some doc
  | context, k :: rest, doc => do
    let path := context ++ [k]
    let doc ← (doc.allow path).enter? false path
    enterParts? path rest doc

end Document

/-- Whether a value is an array. -/
def Expr.isArray : Expr → Bool
  | .array _ => true
  | _ => false

mutual

/-- What a value is when it is given to a key of a table. The tables within it become part of the
document. -/
def Expr.place? (context : Key) (key : String) (inArray : Bool) (doc : Document) :
    Expr → Option (Node × Document)
  | .scalar s => some (.value (.scalar s), doc)
  | .array items => do
    let doc ← placeItems? context key (doc.setArray context key true) items
    some (.value (.array items), doc)
  | .table entries => do
    let path := context ++ [key]
    let doc ← (doc.allow path).enter? inArray path
    let (table, doc) ← placeEntries? path [] doc entries
    some (.table table, doc)

/-- Places the items of an array in turn. -/
def placeItems? (context : Key) (key : String) (doc : Document) : List Expr → Option Document
  | [] => some doc
  | item :: rest => do
    let (_, doc) ← item.place? context key true doc
    placeItems? context key doc rest

/-- Places the entries of a table in turn and collects them in a table of their own. -/
def placeEntries? (path : Key) (table : Table) (doc : Document) :
    List (Key × Expr) → Option (Table × Document)
  | [] => some (table, doc)
  | (key, value) :: rest => do
    let parents := key.dropLast
    let last ← key.getLast?
    let context := path ++ parents
    let doc ← doc.enterParts? path parents
    let (node, doc) ← value.place? context last false (doc.mention (context ++ [last]))
    let doc ← doc.define? context last node
    let table ← table.insert? last node parents
    placeEntries? path table (doc.setArray context last value.isArray) rest

end

namespace Document

/-- The document after a statement, and the table that is open then. -/
def step? (doc : Document) (context : Key) : Statement → Option (Document × Key)
  | .table key => do
    let doc ← doc.enter? false key
    some ((doc.setArray key "" false).mention key, key)
  | .tableArray key => do
    let doc ← doc.enter? true key
    some ((doc.setArray key "" false).mention key, key)
  | .assign key value => do
    let (_, doc) ← placeEntries? context [] doc [(key, value)]
    some (doc, context)

/-- The document after some statements. -/
def run? : Document → Key → List Statement → Option Document
  | doc, _, [] => some doc
  | doc, context, s :: rest => do
    let (doc, context) ← doc.step? context s
    run? doc context rest

/-- The document that a text describes; `none` if the text is malformed. -/
def ofText? (text : String) : Option Document := do
  let statements ← parse text
  run? {} [] statements

end Document

end SsaOpt.Toml
