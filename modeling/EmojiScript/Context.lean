import EmojiScript.Value
import Std.Data.ExtTreeMap

namespace EmojiScript

/-!
# What a run knows

A run keeps two tables: the scope, which holds the values of variables, and the aliases, which
say what is shown in place of a key.  Entries are added and overwritten, never removed.  Two
tables are equal when they hold the same entries, whatever the order in which these came.

- `Scope.ext`, `AliasTable.ext`: equality of tables is equality of their entries.
- `AliasTable.default`: the five aliases that every run starts with.
-/

/-- The values of variables. -/
structure Scope where
  values : Std.ExtTreeMap String Value := ∅
deriving DecidableEq, Inhabited

namespace Scope

/-- The scope in which nothing has a value. -/
def empty : Scope := {}

/-- The value of a variable, if one was stored. -/
def get? (scope : Scope) (name : String) : Option Value := scope.values[name]?

/-- Stores a value, in place of the one the variable had. -/
def define (scope : Scope) (name : String) (value : Value) : Scope where
  values := scope.values.insert name value

/-- Some value was stored under this name. -/
def contains (scope : Scope) (name : String) : Bool := scope.values.contains name

/-- How many variables have a value. -/
def size (scope : Scope) : Nat := scope.values.size

/-- No variable has a value. -/
def isEmpty (scope : Scope) : Bool := scope.values.isEmpty

@[simp] theorem get?_empty (name : String) : empty.get? name = none := by
  simp [empty, get?]

theorem get?_define (scope : Scope) (name : String) (value : Value) (other : String) :
    (scope.define name value).get? other = if name = other then some value else scope.get? other := by
  simp [get?, define, Std.ExtTreeMap.getElem?_insert, Std.LawfulEqCmp.compare_eq_iff_eq]

@[ext] theorem ext {a b : Scope} (h : ∀ name, a.get? name = b.get? name) : a = b := by
  cases a; cases b
  congr
  exact Std.ExtTreeMap.ext_getElem? h

theorem contains_eq_isSome_get? (scope : Scope) (name : String) :
    scope.contains name = (scope.get? name).isSome := by
  simp [contains, get?]

end Scope

/-- What is shown in place of a key. -/
structure AliasTable where
  entries : Std.ExtTreeMap String String
deriving DecidableEq

namespace AliasTable

/-- The aliases that every run starts with. -/
def defaults : List (String × String) :=
  [("love", "😍"), ("santa", "🎅"), ("slipe", "💤"), ("angry", "🤬"), ("pumpkin", "🎃")]

/-- The text of an alias, if the key has one. -/
def get? (aliases : AliasTable) (key : String) : Option String := aliases.entries[key]?

/-- Gives a key its text, in place of the one it had. -/
def define (aliases : AliasTable) (key text : String) : AliasTable where
  entries := aliases.entries.insert key text

/-- The table that holds the default aliases only. -/
def default : AliasTable :=
  defaults.foldl (fun aliases (key, text) => aliases.define key text) ⟨∅⟩

instance : Inhabited AliasTable := ⟨default⟩

/-- What is shown for a key: the text of its alias, or the key itself where it has none. -/
def shown (aliases : AliasTable) (key : String) : String := (aliases.get? key).getD key

/-- How many keys have an alias. -/
def size (aliases : AliasTable) : Nat := aliases.entries.size

/-- No key has an alias. -/
def isEmpty (aliases : AliasTable) : Bool := aliases.entries.isEmpty

theorem get?_define (aliases : AliasTable) (key text other : String) :
    (aliases.define key text).get? other = if key = other then some text else aliases.get? other := by
  simp [get?, define, Std.ExtTreeMap.getElem?_insert, Std.LawfulEqCmp.compare_eq_iff_eq]

@[ext] theorem ext {a b : AliasTable} (h : ∀ key, a.get? key = b.get? key) : a = b := by
  cases a; cases b
  congr
  exact Std.ExtTreeMap.ext_getElem? h

end AliasTable

/-- The two tables of a run.  A fresh context holds the default aliases and no variable. -/
structure Context where
  scope : Scope := .empty
  aliases : AliasTable := .default
deriving DecidableEq, Inhabited

namespace Context

/-- The context with a value stored. -/
def define (context : Context) (name : String) (value : Value) : Context :=
  { context with scope := context.scope.define name value }

/-- The context with an alias given. -/
def defineAlias (context : Context) (key text : String) : Context :=
  { context with aliases := context.aliases.define key text }

end Context

end EmojiScript
