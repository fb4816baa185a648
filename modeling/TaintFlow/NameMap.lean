/-!
# Maps keyed by name

A finite map from names to values, kept as the one list of its entries in
strictly ascending order of names. Names are compared code point by code point,
which is also the byte order of their UTF-8 encodings. Because the list is
unique, two maps with the same entries are equal.
-/

namespace TaintFlow

structure NameMap (α : Type) where
  entries : List (String × α)
  ascending : entries.Pairwise fun a b => a.1 < b.1
deriving DecidableEq

namespace NameMap

variable {α : Type}

def empty : NameMap α := ⟨[], .nil⟩

/-- Puts `name` in its place, replacing an entry of the same name. -/
def insertEntry (name : String) (value : α) : List (String × α) → List (String × α)
  | [] => [(name, value)]
  | (other, kept) :: rest =>
    if name < other then (name, value) :: (other, kept) :: rest
    else if name = other then (name, value) :: rest
    else (other, kept) :: insertEntry name value rest

theorem mem_insertEntry {name : String} {value : α} {entries : List (String × α)}
    {e : String × α} (h : e ∈ insertEntry name value entries) :
    e = (name, value) ∨ e ∈ entries := by
  induction entries with
  | nil => simpa [insertEntry] using h
  | cons first rest ih =>
    obtain ⟨other, kept⟩ := first
    simp only [insertEntry] at h
    split at h
    · simpa using h
    · split at h
      · rcases List.mem_cons.mp h with rfl | hmem
        · exact .inl rfl
        · exact .inr (List.mem_cons_of_mem _ hmem)
      · rcases List.mem_cons.mp h with rfl | hmem
        · exact .inr List.mem_cons_self
        · exact (ih hmem).imp id (List.mem_cons_of_mem _)

theorem ascending_insertEntry (name : String) (value : α) {entries : List (String × α)}
    (h : entries.Pairwise fun a b => a.1 < b.1) :
    (insertEntry name value entries).Pairwise fun a b => a.1 < b.1 := by
  induction entries with
  | nil => simp [insertEntry]
  | cons first rest ih =>
    obtain ⟨other, kept⟩ := first
    have ⟨hfirst, hrest⟩ := List.pairwise_cons.mp h
    simp only [insertEntry]
    split
    · next hlt =>
      refine List.pairwise_cons.mpr ⟨fun e he => ?_, h⟩
      rcases List.mem_cons.mp he with rfl | hmem
      · exact hlt
      · exact String.lt_trans hlt (hfirst e hmem)
    · split
      · next heq =>
        subst heq
        exact List.pairwise_cons.mpr ⟨hfirst, hrest⟩
      · next hnlt hne =>
        refine List.pairwise_cons.mpr ⟨fun e he => ?_, ih hrest⟩
        rcases mem_insertEntry he with rfl | hmem
        · exact Classical.byContradiction fun h' =>
            hne (String.le_antisymm (String.not_lt.mp h') (String.not_lt.mp hnlt))
        · exact hfirst e hmem

/-- The map with `name` bound to `value`; an earlier value of `name` is lost. -/
def insert (map : NameMap α) (name : String) (value : α) : NameMap α :=
  ⟨insertEntry name value map.entries, ascending_insertEntry name value map.ascending⟩

/-- The map of a list of bindings, in which the last binding of a name wins. -/
def ofList (bindings : List (String × α)) : NameMap α :=
  bindings.foldl (fun map binding => map.insert binding.1 binding.2) empty

def get? (map : NameMap α) (name : String) : Option α :=
  map.entries.lookup name

theorem lookup_cons (name : String) (entry : String × α) (rest : List (String × α)) :
    (entry :: rest).lookup name = if name = entry.1 then some entry.2 else rest.lookup name := by
  obtain ⟨key, kept⟩ := entry
  by_cases h : name = key
  · simp [h]
  · rw [List.lookup_cons, beq_eq_false_iff_ne.mpr h, if_neg h]

theorem lookup_insertEntry (name other : String) (value : α) (entries : List (String × α)) :
    (insertEntry name value entries).lookup other =
      if other = name then some value else entries.lookup other := by
  induction entries with
  | nil => simp only [insertEntry, lookup_cons]
  | cons first rest ih =>
    obtain ⟨key, kept⟩ := first
    simp only [insertEntry]
    split
    · simp only [lookup_cons]
    · split
      · next hkey =>
        subst hkey
        simp only [lookup_cons]
        split <;> rfl
      · next hkey =>
        by_cases heq : other = key
        · subst heq
          have : ¬ other = name := fun h => hkey h.symm
          simp only [lookup_cons, this, if_true, if_false]
        · simp only [lookup_cons, heq, if_false, ih]

theorem get?_insert (map : NameMap α) (name other : String) (value : α) :
    (map.insert name value).get? other = if other = name then some value else map.get? other :=
  lookup_insertEntry name other value map.entries

theorem get?_foldl_insert (bindings : List (String × α)) (map : NameMap α) (name : String) :
    (bindings.foldl (fun map binding => map.insert binding.1 binding.2) map).get? name =
      (bindings.reverse.lookup name).or (map.get? name) := by
  induction bindings generalizing map with
  | nil => simp
  | cons first rest ih =>
    rw [List.foldl_cons, ih, get?_insert, List.reverse_cons, List.lookup_append, lookup_cons,
      Option.or_assoc]
    split <;> simp

theorem get?_ofList (bindings : List (String × α)) (name : String) :
    (ofList bindings).get? name = bindings.reverse.lookup name := by
  rw [ofList, get?_foldl_insert]
  simp [empty, get?]

theorem mem_of_mem_entries_ofList {bindings : List (String × α)} {e : String × α}
    (h : e ∈ (ofList bindings).entries) : e ∈ bindings := by
  suffices general : ∀ (bindings : List (String × α)) (map : NameMap α),
      e ∈ (bindings.foldl (fun map binding => map.insert binding.1 binding.2) map).entries →
        e ∈ bindings ∨ e ∈ map.entries by
    simpa [empty] using general bindings empty h
  intro bindings
  induction bindings with
  | nil => intro map h; exact .inr h
  | cons first rest ih =>
    intro map h
    rcases ih (map.insert first.1 first.2) h with hmem | hmem
    · exact .inl (List.mem_cons_of_mem _ hmem)
    · rcases mem_insertEntry hmem with rfl | hold
      · exact .inl List.mem_cons_self
      · exact .inr hold

end NameMap

end TaintFlow
