import Mathlib.Data.List.Basic

/-! Bodies of blocks in bodies. A block is known by its path, the numbers of the items that
lead to it, and an attribute may be added to its body and to no other. -/
namespace TerraformLs.BodyTrees

/-- The items of a body, each with its place. -/
inductive Items (V π : Type)
  | nil
  | attr (place : π) (key : String) (value : V) (rest : Items V π)
  | block (place : π) (ident : String) (labels : List String) (body rest : Items V π)
  deriving DecidableEq

namespace Items

variable {V π : Type}

def length : Items V π → ℕ
  | nil => 0
  | attr _ _ _ rest => rest.length + 1
  | block _ _ _ _ rest => rest.length + 1

/-- The items without their places. -/
def erase : Items V π → Items V Unit
  | nil => nil
  | attr _ key value rest => attr () key value rest.erase
  | block _ ident labels body rest => block () ident labels body.erase rest.erase

/-- The place and the body of the block at a path. -/
def blockAt : Items V π → List ℕ → Option (π × Items V π)
  | nil, _ => none
  | attr _ _ _ rest, (n+1)::path => rest.blockAt (n :: path)
  | attr _ _ _ _, _ => none
  | block _ _ _ _ rest, (n+1)::path => rest.blockAt (n :: path)
  | block place _ _ body _, [0] => some (place,body)
  | block _ _ _ body _, 0::path => body.blockAt path
  | block _ _ _ _ _, [] => none

/-- An attribute more, anywhere between the items. -/
inductive AddedHere (key : String) (value : V) : Items V Unit → Items V Unit → Prop
  | here {b : Items V Unit} : AddedHere key value b (attr () key value b)
  | behindAttr {k : String} {v : V} {b b' : Items V Unit} (h : AddedHere key value b b') :
      AddedHere key value (attr () k v b) (attr () k v b')
  | behindBlock {ident : String} {labels : List String} {c b b' : Items V Unit}
      (h : AddedHere key value b b') :
      AddedHere key value (block () ident labels c b) (block () ident labels c b')

/-- An attribute more in the body of the block at a path, and nowhere else. -/
inductive Added (key : String) (value : V) : List ℕ → Items V Unit → Items V Unit → Prop
  | here {ident : String} {labels : List String} {b b' rest : Items V Unit}
      (h : AddedHere key value b b') :
      Added key value [0] (block () ident labels b rest) (block () ident labels b' rest)
  | inside {path : List ℕ} {ident : String} {labels : List String} {b b' rest : Items V Unit}
      (h : Added key value path b b') :
      Added key value (0 :: path) (block () ident labels b rest) (block () ident labels b' rest)
  | behindAttr {n : ℕ} {path : List ℕ} {k : String} {v : V} {b b' : Items V Unit}
      (h : Added key value (n :: path) b b') :
      Added key value ((n+1) :: path) (attr () k v b) (attr () k v b')
  | behindBlock {n : ℕ} {path : List ℕ} {ident : String} {labels : List String}
      {c b b' : Items V Unit} (h : Added key value (n :: path) b b') :
      Added key value ((n+1) :: path) (block () ident labels c b) (block () ident labels c b')

variable {key : String} {value : V} {path : List ℕ} {b b' : Items V Unit}

theorem length_erase (d : Items V π) : d.erase.length = d.length := by
  induction d with
  | nil => rfl
  | attr _ _ _ _ ih => rw [erase,length,length,ih]
  | block _ _ _ _ _ _ ih => rw [erase,length,length,ih]

theorem AddedHere.length (h : AddedHere key value b b') : b'.length = b.length + 1 := by
  induction h with
  | here => rfl
  | behindAttr _ ih => rw [Items.length,Items.length,ih]
  | behindBlock _ ih => rw [Items.length,Items.length,ih]

theorem blockAt_nil (d : Items V π) : d.blockAt [] = none := by
  cases d <;> rfl

/-- How many items the body of the block at a path has. -/
def lengthAt (d : Items V π) (path : List ℕ) : Option ℕ := (d.blockAt path).map fun x => x.2.length

theorem lengthAt_inside {place : π} {ident : String} {labels : List String} {c rest : Items V π}
    {path : List ℕ} {n : ℕ} (h : c.lengthAt path = some n) :
    (block place ident labels c rest).lengthAt (0 :: path) = some n := by
  cases path with
  | nil =>
    rw [lengthAt,blockAt_nil] at h
    cases h
  | cons m path => exact h

theorem Added.lengthAt (h : Added key value path b b') :
    ∃ n, b.lengthAt path = some n ∧ b'.lengthAt path = some (n + 1) := by
  induction h with
  | here h => exact ⟨_,rfl,congrArg some h.length⟩
  | inside _ ih =>
    obtain ⟨n,hn,hn'⟩ := ih
    exact ⟨n,lengthAt_inside hn,lengthAt_inside hn'⟩
  | behindAttr _ ih => exact ih
  | behindBlock _ ih => exact ih

theorem lengthAt_erase (d : Items V π) (path : List ℕ) : d.erase.lengthAt path = d.lengthAt path := by
  induction d generalizing path with
  | nil => rfl
  | attr _ _ _ rest ih =>
    match path with
    | [] | 0::_ => rfl
    | (n+1)::path => exact ih (n :: path)
  | block _ _ _ c rest ihbody ih =>
    match path with
    | [] => rfl
    | [0] => exact congrArg some (length_erase c)
    | 0::n::path => exact ihbody (n :: path)
    | (n+1)::path => exact ih (n :: path)

/-- The block that an attribute is added to is there before and after. -/
theorem Added.blockAt {d d' : Items V π} (h : Added key value path d.erase d'.erase) {place : π}
    {c : Items V π} (hd : d.blockAt path = some (place,c)) :
    ∃ place' c', d'.blockAt path = some (place',c') ∧ c'.length = c.length + 1 := by
  obtain ⟨n,hn,hn'⟩ := h.lengthAt
  rw [lengthAt_erase] at hn hn'
  obtain ⟨⟨place',c'⟩,hc',hlen⟩ := Option.map_eq_some_iff.mp hn'
  have hlen' : c.length = n := by simpa [Items.lengthAt,hd] using hn
  exact ⟨place',c',hc',by simpa [hlen'] using hlen⟩

theorem Added.ne (h : Added key value path b b') : b ≠ b' := by
  rintro rfl
  obtain ⟨n,hn,hn'⟩ := h.lengthAt
  rw [hn] at hn'
  cases hn'

/-- All blocks with their paths. -/
def blocks : Items V π → List (List ℕ × π × Items V π)
  | nil => []
  | attr _ _ _ rest => rest.blocks.map fun x => (x.1.modifyHead (· + 1),x.2)
  | block place _ _ body rest => ([0],place,body) :: (body.blocks.map fun x => (0 :: x.1,x.2)) ++
      rest.blocks.map fun x => (x.1.modifyHead (· + 1),x.2)

theorem mem_blocks {d : Items V π} {path : List ℕ} {x : π × Items V π}
    (h : d.blockAt path = some x) : (path,x) ∈ d.blocks := by
  induction d generalizing path with
  | nil => cases h
  | attr _ _ _ rest ih =>
    match path with
    | [] | 0::_ => cases h
    | (n+1)::path => exact List.mem_map.mpr ⟨_,ih h,rfl⟩
  | block _ _ _ c rest ihbody ih =>
    match path with
    | [] => cases h
    | [0] =>
      cases h
      exact List.mem_cons_self
    | 0::n::path =>
      exact List.mem_cons_of_mem _ (List.mem_append_left _ (List.mem_map.mpr ⟨_,ihbody h,rfl⟩))
    | (n+1)::path =>
      exact List.mem_cons_of_mem _ (List.mem_append_right _ (List.mem_map.mpr ⟨_,ih h,rfl⟩))

end Items

end TerraformLs.BodyTrees
