import ProcessFlow.Json.Basic

/-! # Tables of a TOML document

A table comes into being by a header, by a path of keys, or on the way to a table below it. How it
came into being decides whether it may still be extended: a header may complete a table that is only
on the way to another one, a path may extend tables made by paths, and nothing else.
-/

namespace ProcessFlow

namespace Toml

inductive Node where
  /-- A complete value, inline tables among them. -/
  | value (complete : Json)
  /-- A table: whether it was only met on the way to another table, whether a path of keys made it,
  and its entries. -/
  | table (implicit dotted : Bool) (entries : List (String × Node))
  /-- Tables under one name; a header adds one. -/
  | tables (elements : List Node)

namespace Node

instance : Inhabited Node := ⟨.table false false []⟩

/-- A table without entries that a header or a document makes. -/
def emptyTable : Node := .table false false []

def find? (key : String) (entries : List (String × Node)) : Option Node :=
  (entries.find? fun entry => entry.1 = key).map Prod.snd

/-- Put a node under a key, in place of the node there. -/
def place (key : String) (node : Node) : List (String × Node) → List (String × Node)
  | [] => [(key, node)]
  | entry :: rest =>
    if entry.1 = key then (key, node) :: rest else entry :: place key node rest

def changeEntries? (change : List (String × Node) → Option (List (String × Node))) :
    Node → Option Node
  | .table implicit dotted entries => (change entries).map (.table implicit dotted)
  | _ => none

/-- Change the table that a path leads to, making the tables on the way that are missing. The path
of a value may not pass through tables that a header made. -/
def changeAt? (dotted : Bool) (change : Node → Option Node) : List String → Node → Option Node
  | [], node => change node
  | key :: path, node =>
    node.changeEntries? fun entries =>
      let below? :=
        match find? key entries with
        | none => changeAt? dotted change path (.table true dotted [])
        | some (.table implicit made inner) =>
          if dotted && !implicit then none
          else changeAt? dotted change path (.table implicit made inner)
        | some (.tables elements) =>
          match elements.getLast? with
          | some last =>
            (changeAt? dotted change path last).map fun last => .tables (elements.dropLast ++ [last])
          | none => none
        | some (.value _) => none
      below?.map fun below => place key below entries

/-- Put a value under the last key of a path in the table that the other keys lead to. A path of one
key may not extend a table that a path made, and a longer path only such tables. -/
def addValue? (path : List String) (value : Json) (root : Node) : Option Node :=
  match path.getLast? with
  | none => none
  | some key =>
    root.changeAt? true (fun node =>
      match node with
      | .table implicit dotted entries =>
        if dotted = (path.length == 1) || (find? key entries).isSome then none
        else some (.table implicit dotted (place key (.value value) entries))
      | _ => none) path.dropLast

/-- The table that a header with single brackets begins: a table that was only on the way so far, or
a new one. The other keys of the header must lead to its place. -/
def openTable? (path : List String) (root : Node) : Option Node :=
  match path.getLast? with
  | none => none
  | some key =>
    root.changeAt? false (changeEntries? fun entries =>
      match find? key entries with
      | none => some (place key emptyTable entries)
      | some (.table true false inner) => some (place key (.table false false inner) entries)
      | some _ => none) path.dropLast

/-- The table that a header with double brackets begins: one more of the tables of its name. -/
def openElement? (path : List String) (root : Node) : Option Node :=
  match path.getLast? with
  | none => none
  | some key =>
    root.changeAt? false (changeEntries? fun entries =>
      match find? key entries with
      | none => some (place key (.tables [emptyTable]) entries)
      | some (.tables elements) => some (place key (.tables (elements ++ [emptyTable])) entries)
      | some _ => none) path.dropLast

/-- Change the table that the last header began. -/
def changeCurrent? (change : Node → Option Node) : List String → Node → Option Node :=
  changeAt? false change

mutual

def toJson : Node → Json
  | .value complete => complete
  | .table _ _ entries => .object (entriesToJson entries)
  | .tables elements => .array (elementsToJson elements)

def entriesToJson : List (String × Node) → List (Option String × Json)
  | [] => []
  | (key, node) :: rest => (some key, node.toJson) :: entriesToJson rest

def elementsToJson : List Node → List Json
  | [] => []
  | node :: rest => node.toJson :: elementsToJson rest

end

end Node

end Toml

end ProcessFlow
