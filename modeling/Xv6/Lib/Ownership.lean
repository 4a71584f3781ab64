import Mathlib.Data.List.Perm.Basic
import Mathlib.Data.List.Nodup
import Mathlib.Logic.Function.Basic

/-!
# Resources with one owner each

An allocator marks the resources of an area that are in use.  An owner has at
most one resource, and zero stands for none.  `Owns` says that the marked
resources and the owned ones are the same and that none has two owners.
-/

namespace Xv6.Lib

variable {Owner Resource : Type} [Zero Resource]

structure Owns (area marked : Resource → Prop) (address : Owner → Resource) :
    Prop where
  null : ¬ area 0
  inside : ∀ owner, address owner ≠ 0 → area (address owner)
  used : ∀ owner, address owner ≠ 0 → marked (address owner)
  single : ∀ owner other, address owner ≠ 0 →
    address owner = address other → owner = other
  complete : ∀ resource, area resource → marked resource →
    ∃ owner, address owner = resource

namespace Owns

variable {area marked : Resource → Prop} {address : Owner → Resource}
  {owner : Owner} {resource : Resource}

theorem ne_zero (owns : Owns area marked address) (inside : area resource) :
    resource ≠ 0 := by
  intro zero
  exact owns.null (zero ▸ inside)

theorem ne_of_unmarked (owns : Owns area marked address)
    (inside : area resource) (free : ¬ marked resource) (other : Owner) :
    address other ≠ resource := by
  intro same
  apply free
  rw [← same]
  exact owns.used other (by rw [same]; exact owns.ne_zero inside)

variable [DecidableEq Owner]

/-- A free resource goes to an owner that has none. -/
theorem assign (owns : Owns area marked address) (nothing : address owner = 0)
    (inside : area resource) (free : ¬ marked resource) :
    Owns area (fun other => other = resource ∨ marked other)
      (Function.update address owner resource) where
  null := owns.null
  inside := by
    intro other
    by_cases same : other = owner
    · subst other
      simpa using fun _ => inside
    · simpa [same] using owns.inside other
  used := by
    intro other
    by_cases same : other = owner
    · subst other
      simp
    · rw [Function.update_of_ne same]
      exact fun owned => Or.inr (owns.used other owned)
  single := by
    intro first second
    by_cases same : first = owner
    · subst first
      by_cases same' : second = owner
      · exact fun _ _ => same'.symm
      · rw [Function.update_self, Function.update_of_ne same']
        exact fun _ equal =>
          (owns.ne_of_unmarked inside free second equal.symm).elim
    · by_cases same' : second = owner
      · subst second
        rw [Function.update_self, Function.update_of_ne same]
        exact fun _ equal => (owns.ne_of_unmarked inside free first equal).elim
      · rw [Function.update_of_ne same, Function.update_of_ne same']
        exact owns.single first second
  complete := by
    intro other inside' marked'
    rcases marked' with same | marked'
    · exact ⟨owner, by rw [Function.update_self, same]⟩
    · obtain ⟨holder, holds⟩ := owns.complete other inside' marked'
      have different : holder ≠ owner := by
        intro same
        subst holder
        exact owns.ne_zero inside' (holds.symm.trans nothing)
      exact ⟨holder, by rw [Function.update_of_ne different, holds]⟩

/-- An owner gives its resource back. -/
theorem release (owns : Owns area marked address)
    (holds : address owner = resource) :
    Owns area (fun other => other ≠ resource ∧ marked other)
      (Function.update address owner 0) where
  null := owns.null
  inside := by
    intro other
    by_cases same : other = owner
    · simp [same]
    · simpa [same] using owns.inside other
  used := by
    intro other
    by_cases same : other = owner
    · simp [same]
    · rw [Function.update_of_ne same]
      intro owned
      refine ⟨?_, owns.used other owned⟩
      intro equal
      exact same (owns.single other owner owned (equal.trans holds.symm))
  single := by
    intro first second
    by_cases same : first = owner
    · simp [same]
    · by_cases same' : second = owner
      · subst second
        rw [Function.update_self, Function.update_of_ne same]
        exact fun owned zero => (owned zero).elim
      · rw [Function.update_of_ne same, Function.update_of_ne same']
        exact owns.single first second
  complete := by
    intro other inside' marked'
    obtain ⟨holder, equal⟩ := owns.complete other inside' marked'.2
    have different : holder ≠ owner := by
      intro same
      subst holder
      exact marked'.1 (equal.symm.trans holds)
    exact ⟨holder, by rw [Function.update_of_ne different, equal]⟩

end Owns

/-! ## A list of the free resources -/

/-- The resources of the area are owned or in the free list, and not both. -/
structure Pool (area : Resource → Prop) (free : List Resource)
    (address : Owner → Resource) : Prop where
  owns : Owns area (· ∉ free) address
  nodup : free.Nodup
  inside : ∀ resource ∈ free, area resource

namespace Pool

variable {area : Resource → Prop} {free free' : List Resource}
  {address : Owner → Resource} {owner other : Owner} {resource : Resource}

theorem not_mem (pool : Pool area free address) (owned : address owner ≠ 0) :
    address owner ∉ free :=
  pool.owns.used owner owned

theorem ne_of_mem (pool : Pool area free address) (member : resource ∈ free)
    (owner : Owner) : address owner ≠ resource :=
  pool.owns.ne_of_unmarked (pool.inside resource member) (not_not.mpr member)
    owner

theorem ne_zero (pool : Pool area free address) (member : resource ∈ free) :
    resource ≠ 0 :=
  pool.owns.ne_zero (pool.inside resource member)

/-- The owners determine which resources are free. -/
theorem perm (pool : Pool area free address)
    (pool' : Pool area free' address) : free.Perm free' := by
  have half : ∀ {free free' : List Resource}, Pool area free address →
      Pool area free' address → ∀ resource ∈ free, resource ∈ free' := by
    intro free free' pool pool' resource member
    by_contra other
    obtain ⟨owner, same⟩ :=
      pool'.owns.complete resource (pool.inside resource member) other
    exact pool.ne_of_mem member owner same
  rw [List.perm_ext_iff_of_nodup pool.nodup pool'.nodup]
  intro resource
  exact ⟨half pool pool' resource, half pool' pool resource⟩

variable [DecidableEq Owner]

/-- An owner takes the first free resource. -/
theorem take (pool : Pool area (resource :: free) address)
    (nothing : address owner = 0) :
    Pool area free (Function.update address owner resource) := by
  have member : resource ∈ resource :: free := List.mem_cons_self
  obtain ⟨fresh, nodup⟩ := List.nodup_cons.mp pool.nodup
  refine ⟨?_, nodup, fun other rest =>
    pool.inside other (List.mem_cons_of_mem _ rest)⟩
  have owns := pool.owns.assign nothing (pool.inside resource member)
    (not_not.mpr member)
  convert owns using 1
  funext other
  apply propext
  rw [List.mem_cons, not_or]
  constructor
  · intro absent
    by_cases same : other = resource
    · exact Or.inl same
    · exact Or.inr ⟨same, absent⟩
  · intro either
    rcases either with same | ⟨_, absent⟩
    · rw [same]
      exact fresh
    · exact absent

/-- An owner gives its resource back. -/
theorem give (pool : Pool area free address) (holds : address owner = resource)
    (owned : resource ≠ 0) :
    Pool area (resource :: free) (Function.update address owner 0) := by
  subst resource
  refine ⟨?_, List.nodup_cons.mpr ⟨pool.not_mem owned, pool.nodup⟩, ?_⟩
  · have owns := pool.owns.release (rfl : address owner = address owner)
    convert owns using 1
    funext other
    rw [List.mem_cons, not_or]
  · intro other member
    rcases List.mem_cons.mp member with same | member
    · rw [same]
      exact pool.owns.inside owner owned
    · exact pool.inside other member

/-- A resource goes from one owner to another. -/
theorem move (pool : Pool area free address) (holds : address owner = resource)
    (owned : resource ≠ 0) (nothing : address other = 0) :
    Pool area free
      (Function.update (Function.update address owner 0) other resource) := by
  have different : other ≠ owner := by
    intro same
    rw [same, holds] at nothing
    exact owned nothing
  apply (pool.give holds owned).take
  rw [Function.update_of_ne different, nothing]

end Pool

end Xv6.Lib
