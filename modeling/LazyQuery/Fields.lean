/-!
# Fields

The members of an object: key and value pairs in increasing order of the keys, each key once.

* `Fields.insert` — puts a value under a key, replacing the one that was there;
* `Fields.ofList` — the fields of a list of pairs, the last of several values under one key winning;
* `Fields.get?` — the value under a key.
-/

namespace LazyQuery

abbrev Fields (α : Type) := List (String × α)

namespace Fields

variable {α : Type}

def insert (key : String) (value : α) : Fields α → Fields α
  | [] => [(key, value)]
  | (k, v) :: rest =>
    match compare key k with
    | .lt => (key, value) :: (k, v) :: rest
    | .eq => (key, value) :: rest
    | .gt => (k, v) :: insert key value rest

def ofList (pairs : List (String × α)) : Fields α :=
  pairs.foldl (fun fields pair => fields.insert pair.1 pair.2) []

def get? (fields : Fields α) (key : String) : Option α :=
  (fields.find? fun field => field.1 == key).map Prod.snd

end Fields

end LazyQuery
