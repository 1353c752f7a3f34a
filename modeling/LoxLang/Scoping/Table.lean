import LoxLang.Program.Basic

/-!
# Binding tables

A table holds, for each site of a local name, the number of scopes between the use and the
declaration. A site without an entry is a global use.
-/

namespace LoxLang

structure BindingTable where
  /-- The entry of each site, in the order of the sites. -/
  entries : Array (Option Nat)
  deriving DecidableEq, Repr

namespace BindingTable

def empty : BindingTable := ⟨#[]⟩

def hops? (t : BindingTable) (site : Site) : Option Nat := (t.entries[site]?).join

def insert (t : BindingTable) (site : Site) (hops : Nat) : BindingTable :=
  let padded := t.entries ++ Array.replicate (site + 1 - t.entries.size) none
  ⟨padded.setIfInBounds site (some hops)⟩

/-- Adds ties, the last one winning. -/
def insertAll (t : BindingTable) (ties : List (Site × Nat)) : BindingTable :=
  ties.foldl (fun t tie => t.insert tie.1 tie.2) t

theorem hops?_insert (t : BindingTable) (site other : Site) (d : Nat) :
    (t.insert site d).hops? other = if other = site then some d else t.hops? other := by
  unfold hops? insert
  rw [Array.getElem?_setIfInBounds, Array.getElem?_append, Array.getElem?_replicate]
  grind

@[simp] theorem hops?_empty (site : Site) : empty.hops? site = none := by
  simp [empty, hops?]

theorem insertAll_append (t : BindingTable) (first second : List (Site × Nat)) :
    t.insertAll (first ++ second) = (t.insertAll first).insertAll second :=
  List.foldl_append

end BindingTable

end LoxLang
