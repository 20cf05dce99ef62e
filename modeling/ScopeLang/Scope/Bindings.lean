/-!
# Bindings

The names that one scope binds, each to one value.
-/

namespace ScopeLang

/-- Names and their values; a name stands at most once. -/
abbrev Bindings (ν : Type) := List (String × ν)

namespace Bindings

variable {ν : Type}

def get? (name : String) : Bindings ν → Option ν
  | [] => none
  | (n, v) :: rest => if n = name then some v else get? name rest

def binds (bs : Bindings ν) (name : String) : Bool := (bs.get? name).isSome

/-- Binds a name, in the place of its earlier binding if there is one. -/
def insert (name : String) (value : ν) : Bindings ν → Bindings ν
  | [] => [(name, value)]
  | (n, v) :: rest => if n = name then (n, value) :: rest else (n, v) :: insert name value rest

def names (bs : Bindings ν) : List String := bs.map Prod.fst

@[simp] theorem get?_insert_self (name : String) (value : ν) (bs : Bindings ν) :
    (bs.insert name value).get? name = some value := by
  induction bs with
  | nil => simp [insert, get?]
  | cons b rest ih =>
    by_cases h : b.1 = name
    · simp [insert, get?, h]
    · simp [insert, get?, h, ih]

theorem get?_insert_of_ne {name other : String} (h : other ≠ name) (value : ν) (bs : Bindings ν) :
    (bs.insert name value).get? other = bs.get? other := by
  induction bs with
  | nil => simp [insert, get?, h.symm]
  | cons b rest ih =>
    obtain ⟨n, v⟩ := b
    by_cases hn : n = name
    · simp [insert, get?, hn, h.symm]
    · simp only [insert, hn, if_false, get?, ih]

end Bindings

end ScopeLang
