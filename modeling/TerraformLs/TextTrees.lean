import Mathlib.Data.List.Basic

/-! Concrete syntax trees: the nodes of a grammar with the pieces of text between them.
Some nodes are picked and give way to other trees, by edits of the text that the tree
stands for. The edits are apart just where no picked node has another one inside. -/
namespace TerraformLs.TextTrees

mutual

inductive Tree (K τ : Type)
  | node (kind : K) (parts : Parts K τ)

inductive Parts (K τ : Type)
  | nil
  | text (s : τ) (rest : Parts K τ)
  | child (t : Tree K τ) (rest : Parts K τ)

end

variable {K τ υ α : Type}

def Tree.kind : Tree K τ → K
  | .node kind _ => kind

def Tree.parts : Tree K τ → Parts K τ
  | .node _ parts => parts

def Parts.append : Parts K τ → Parts K τ → Parts K τ
  | .nil, ps => ps
  | .text s rest, ps => .text s (rest.append ps)
  | .child t rest, ps => .child t (rest.append ps)

def Parts.children : Parts K τ → List (Tree K τ)
  | .nil => []
  | .text _ rest => rest.children
  | .child t rest => t :: rest.children

mutual

/-- The text that a tree stands for. -/
def Tree.render : Tree K (List α) → List α
  | .node _ parts => parts.render

def Parts.render : Parts K (List α) → List α
  | .nil => []
  | .text s rest => s ++ rest.render
  | .child t rest => t.render ++ rest.render

end

mutual

def Tree.map (f : τ → υ) : Tree K τ → Tree K υ
  | .node kind parts => .node kind (parts.map f)

def Parts.map (f : τ → υ) : Parts K τ → Parts K υ
  | .nil => .nil
  | .text s rest => .text (f s) (rest.map f)
  | .child t rest => .child (t.map f) (rest.map f)

end

section rewriting

variable (pick : Tree K τ → Bool) (f : Tree K τ → Tree K τ)

mutual

/-- The picked nodes, those inside of others too, give way to other trees. -/
def Tree.rewrite : Tree K τ → Tree K τ
  | .node kind parts =>
    if pick (.node kind parts) then f (.node kind (parts.rewrite))
    else .node kind (parts.rewrite)

def Parts.rewrite : Parts K τ → Parts K τ
  | .nil => .nil
  | .text s rest => .text s rest.rewrite
  | .child t rest => .child t.rewrite rest.rewrite

end

mutual

/-- The picked nodes of a tree, the outer ones first. -/
def Tree.picked : Tree K τ → List (Tree K τ)
  | .node kind parts =>
    (if pick (.node kind parts) then [.node kind parts] else []) ++ parts.picked

def Parts.picked : Parts K τ → List (Tree K τ)
  | .nil => []
  | .text _ rest => rest.picked
  | .child t rest => t.picked ++ rest.picked

end

mutual

/-- No picked node has another one inside. -/
def Tree.Flat : Tree K τ → Prop
  | .node kind parts =>
    if pick (.node kind parts) then parts.picked pick = [] else parts.Flat

def Parts.Flat : Parts K τ → Prop
  | .nil => True
  | .text _ rest => rest.Flat
  | .child t rest => t.Flat ∧ rest.Flat

end

end rewriting

/-! ## Edits -/

/-- A replacement of the text between two places. -/
structure Edit (α : Type) where
  start : ℕ
  stop : ℕ
  newText : List α

/-- The edits, in order and apart from each other, lead from one text to the other; the first
text begins at a place. -/
inductive Spliced (size : List α → ℕ) : ℕ → List (Edit α) → List α → List α → Prop
  | nil {pos : ℕ} {s : List α} : Spliced size pos [] s s
  | cons {pos : ℕ} {a b c new new' : List α} {es : List (Edit α)}
      (h : Spliced size (pos + size a + size b) es c new') :
      Spliced size pos (⟨pos + size a,pos + size a + size b,new⟩ :: es) (a ++ b ++ c)
        (a ++ new ++ new')

/-- No edit begins inside of the other. -/
def Apart (e e' : Edit α) : Prop := e.stop ≤ e'.start ∨ e'.stop ≤ e.start

section edits

variable (pick : Tree K (List α) → Bool) (f : Tree K (List α) → Tree K (List α))
  (size : List α → ℕ)

mutual

/-- The picked nodes with the places where they begin. -/
def Tree.found : ℕ → Tree K (List α) → List (ℕ × Tree K (List α))
  | pos, .node kind parts =>
    (if pick (.node kind parts) then [(pos,.node kind parts)] else []) ++ parts.found pos

def Parts.found : ℕ → Parts K (List α) → List (ℕ × Tree K (List α))
  | _, .nil => []
  | pos, .text s rest => rest.found (pos + size s)
  | pos, .child t rest => t.found pos ++ rest.found (pos + size t.render)

end

/-- The trees right below, with the places where they begin. -/
def Parts.placed : ℕ → Parts K (List α) → List (ℕ × Tree K (List α))
  | _, .nil => []
  | pos, .text s rest => rest.placed (pos + size s)
  | pos, .child t rest => (pos,t) :: rest.placed (pos + size t.render)

/-- The edit that a picked node stands for. -/
def editOf (p : ℕ × Tree K (List α)) : Edit α :=
  ⟨p.1,p.1 + size p.2.render,(f p.2).render⟩

end edits

section picks

variable {pick : Tree K τ → Bool} {f g : Tree K τ → Tree K τ}

mutual

theorem Tree.rewrite_of_none : ∀ {t : Tree K τ}, t.picked pick = [] → t.rewrite pick f = t
  | .node kind parts, h => by
    rw [Tree.picked] at h
    obtain ⟨hpick,hparts⟩ := List.append_eq_nil_iff.mp h
    rw [Tree.rewrite,Parts.rewrite_of_none hparts,if_neg fun hp => by rw [if_pos hp] at hpick; cases hpick]

theorem Parts.rewrite_of_none : ∀ {ps : Parts K τ}, ps.picked pick = [] → ps.rewrite pick f = ps
  | .nil, _ => rfl
  | .text s rest, h => by
    rw [Parts.picked] at h
    rw [Parts.rewrite,Parts.rewrite_of_none h]
  | .child t rest, h => by
    obtain ⟨ht,hrest⟩ := List.append_eq_nil_iff.mp h
    rw [Parts.rewrite,Tree.rewrite_of_none ht,Parts.rewrite_of_none hrest]

end

mutual

/-- Two ways to replace the picked nodes agree on a tree where they agree on each of these. -/
theorem Tree.rewrite_eq_iff (u : τ → υ) : ∀ {t : Tree K τ}, t.Flat pick →
    ((t.rewrite pick f).map u = (t.rewrite pick g).map u ↔
      ∀ p ∈ t.picked pick, (f p).map u = (g p).map u)
  | .node kind parts, h => by
    rw [Tree.Flat] at h
    rw [Tree.rewrite,Tree.rewrite,Tree.picked]
    by_cases hp : pick (.node kind parts)
    · rw [if_pos hp] at h
      rw [if_pos hp,if_pos hp,if_pos hp,h,Parts.rewrite_of_none h,Parts.rewrite_of_none h]
      simp
    · rw [if_neg hp] at h
      rw [if_neg hp,if_neg hp,if_neg hp,List.nil_append,← Parts.rewrite_eq_iff u h,Tree.map,
        Tree.map,Tree.node.injEq]
      exact and_iff_right rfl

theorem Parts.rewrite_eq_iff (u : τ → υ) : ∀ {ps : Parts K τ}, ps.Flat pick →
    ((ps.rewrite pick f).map u = (ps.rewrite pick g).map u ↔
      ∀ p ∈ ps.picked pick, (f p).map u = (g p).map u)
  | .nil, _ => by simp [Parts.rewrite,Parts.picked]
  | .text s rest, h => by
    rw [Parts.Flat] at h
    rw [Parts.rewrite,Parts.rewrite,Parts.map,Parts.map,Parts.picked,Parts.text.injEq,
      ← Parts.rewrite_eq_iff u h]
    exact and_iff_right rfl
  | .child t rest, h => by
    rw [Parts.rewrite,Parts.rewrite,Parts.map,Parts.map,Parts.picked,Parts.child.injEq,
      List.forall_mem_append,Tree.rewrite_eq_iff u h.1,Parts.rewrite_eq_iff u h.2]

end

end picks

section splices

variable {pick : Tree K (List α) → Bool} {f : Tree K (List α) → Tree K (List α)}
  {size : List α → ℕ}

mutual

theorem Tree.found_map_snd (size : List α → ℕ) (pos : ℕ) : ∀ t : Tree K (List α),
    (t.found pick size pos).map Prod.snd = t.picked pick
  | .node kind parts => by
    rw [Tree.found,Tree.picked,List.map_append,Parts.found_map_snd]
    split <;> rfl

theorem Parts.found_map_snd (size : List α → ℕ) (pos : ℕ) : ∀ ps : Parts K (List α),
    (ps.found pick size pos).map Prod.snd = ps.picked pick
  | .nil => rfl
  | .text s rest => by rw [Parts.found,Parts.picked,Parts.found_map_snd]
  | .child t rest => by
    rw [Parts.found,Parts.picked,List.map_append,Tree.found_map_snd,Parts.found_map_snd]

end

theorem Parts.found_eq_nil (pos : ℕ) {ps : Parts K (List α)} :
    ps.found pick size pos = [] ↔ ps.picked pick = [] := by
  rw [← Parts.found_map_snd size pos ps,List.map_eq_nil_iff]

section renders

variable {g : Tree K (List α) → Tree K (List α)}

mutual

/-- Two ways to replace the picked nodes lead to one text where they do for each of these. -/
theorem Tree.render_rewrite : ∀ {t : Tree K (List α)}, t.Flat pick →
    (∀ p ∈ t.picked pick, (f p).render = (g p).render) →
      (t.rewrite pick f).render = (t.rewrite pick g).render
  | .node kind parts, h, hfg => by
    rw [Tree.Flat] at h
    rw [Tree.picked,List.forall_mem_append] at hfg
    rw [Tree.rewrite,Tree.rewrite]
    by_cases hp : pick (.node kind parts)
    · rw [if_pos hp] at h
      rw [if_pos hp,List.forall_mem_singleton] at hfg
      rw [if_pos hp,if_pos hp,Parts.rewrite_of_none h,Parts.rewrite_of_none h,hfg.1]
    · rw [if_neg hp] at h
      rw [if_neg hp,if_neg hp,Tree.render,Tree.render,Parts.render_rewrite h hfg.2]

theorem Parts.render_rewrite : ∀ {ps : Parts K (List α)}, ps.Flat pick →
    (∀ p ∈ ps.picked pick, (f p).render = (g p).render) →
      (ps.rewrite pick f).render = (ps.rewrite pick g).render
  | .nil, _, _ => rfl
  | .text s rest, h, hfg => by
    rw [Parts.Flat] at h
    rw [Parts.rewrite,Parts.rewrite,Parts.render,Parts.render,Parts.render_rewrite h hfg]
  | .child t rest, h, hfg => by
    rw [Parts.picked,List.forall_mem_append] at hfg
    rw [Parts.rewrite,Parts.rewrite,Parts.render,Parts.render,Tree.render_rewrite h.1 hfg.1,
      Parts.render_rewrite h.2 hfg.2]

end

end renders

mutual

/-- What is picked are those of all nodes that qualify. -/
theorem Tree.found_eq_filter (pos : ℕ) : ∀ t : Tree K (List α), t.found pick size pos =
    (t.found (fun _ => true) size pos).filter fun p => pick p.2
  | .node kind parts => by
    rw [Tree.found,Tree.found,List.filter_append,Parts.found_eq_filter,if_pos rfl]
    by_cases hp : pick (.node kind parts) = true <;> simp [hp]

theorem Parts.found_eq_filter (pos : ℕ) : ∀ ps : Parts K (List α), ps.found pick size pos =
    (ps.found (fun _ => true) size pos).filter fun p => pick p.2
  | .nil => rfl
  | .text s rest => by rw [Parts.found,Parts.found,Parts.found_eq_filter]
  | .child t rest => by
    rw [Parts.found,Parts.found,List.filter_append,Tree.found_eq_filter,Parts.found_eq_filter]

end

variable (hsize : ∀ a b : List α, size (a ++ b) = size a + size b)

include hsize

theorem Spliced.append {pos : ℕ} {es es' : List (Edit α)} {a a' b b' : List α}
    (h : Spliced size pos es a a') (h' : Spliced size (pos + size a) es' b b') :
    Spliced size pos (es ++ es') (a ++ b) (a' ++ b') := by
  induction h with
  | @nil pos s =>
    cases h' with
    | nil => exact .nil
    | @cons _ c d e new new' es h' =>
      have hcons : Spliced size pos (⟨pos + size (s ++ c),pos + size (s ++ c) + size d,new⟩ :: es)
          (s ++ c ++ d ++ e) (s ++ c ++ new ++ new') :=
        .cons (by rw [hsize]; simpa [Nat.add_assoc] using h')
      simpa [hsize,Nat.add_assoc,List.append_assoc] using hcons
  | @cons pos c d e new new' es h ih =>
    have hrest := ih (by simpa [hsize,Nat.add_assoc] using h')
    have hcons : Spliced size pos (⟨pos + size c,pos + size c + size d,new⟩ :: (es ++ es')) _
        (c ++ new ++ _) := .cons hrest
    simpa [List.append_assoc] using hcons

mutual

/-- The edits of the picked nodes put the other trees into the text. -/
theorem Tree.spliced (pos : ℕ) : ∀ {t : Tree K (List α)}, t.Flat pick →
    Spliced size pos ((t.found pick size pos).map (editOf f size)) t.render
      (t.rewrite pick f).render
  | .node kind parts, h => by
    rw [Tree.Flat] at h
    rw [Tree.found,Tree.rewrite]
    by_cases hp : pick (.node kind parts)
    · rw [if_pos hp] at h
      rw [if_pos hp,if_pos hp,(Parts.found_eq_nil pos).mpr h,Parts.rewrite_of_none h]
      have hcons : Spliced size pos
          [⟨pos + size [],pos + size [] + size parts.render,(f (.node kind parts)).render⟩]
          ([] ++ parts.render ++ []) ([] ++ (f (.node kind parts)).render ++ []) := .cons .nil
      have hzero : size [] = 0 := by simpa using hsize [] []
      simpa [editOf,Tree.render,hzero] using hcons
    · rw [if_neg hp] at h
      rw [if_neg hp,if_neg hp,List.nil_append]
      exact Parts.spliced pos h

theorem Parts.spliced (pos : ℕ) : ∀ {ps : Parts K (List α)}, ps.Flat pick →
    Spliced size pos ((ps.found pick size pos).map (editOf f size)) ps.render
      (ps.rewrite pick f).render
  | .nil, _ => .nil
  | .text s rest, h => by
    rw [Parts.found,Parts.render,Parts.rewrite,Parts.render]
    exact Spliced.append hsize .nil (Parts.spliced _ h)
  | .child t rest, h => by
    rw [Parts.found,Parts.render,Parts.rewrite,Parts.render,List.map_append]
    exact Spliced.append hsize (Tree.spliced pos h.1) (Parts.spliced _ h.2)

end

end splices

section places

variable {pick : Tree K (List α) → Bool} {f : Tree K (List α) → Tree K (List α)}
  {size : List α → ℕ}

mutual

theorem Tree.found_bounds (hsize : ∀ a b : List α, size (a ++ b) = size a + size b) {pos : ℕ} :
    ∀ {t : Tree K (List α)} {p}, p ∈ t.found pick size pos →
      pos ≤ p.1 ∧ p.1 + size p.2.render ≤ pos + size t.render
  | .node kind parts, p, h => by
    rw [Tree.found,List.mem_append] at h
    rw [Tree.render]
    rcases h with h | h
    · split at h
      · obtain rfl := List.mem_singleton.mp h
        exact ⟨Nat.le_refl _,Nat.le_refl _⟩
      · cases h
    · exact Parts.found_bounds hsize h

theorem Parts.found_bounds (hsize : ∀ a b : List α, size (a ++ b) = size a + size b) {pos : ℕ} :
    ∀ {ps : Parts K (List α)} {p}, p ∈ ps.found pick size pos →
      pos ≤ p.1 ∧ p.1 + size p.2.render ≤ pos + size ps.render
  | .nil, _, h => by cases h
  | .text s rest, p, h => by
    rw [Parts.found] at h
    have hrest := Parts.found_bounds hsize h
    rw [Parts.render,hsize]
    omega
  | .child t rest, p, h => by
    rw [Parts.found,List.mem_append] at h
    rw [Parts.render,hsize]
    rcases h with h | h
    · have ht := Tree.found_bounds hsize h
      omega
    · have hrest := Parts.found_bounds hsize h
      omega

end

mutual

theorem Tree.pick_of_found {pos : ℕ} : ∀ {t : Tree K (List α)} {p},
    p ∈ t.found pick size pos → pick p.2 = true
  | .node kind parts, p, h => by
    rw [Tree.found,List.mem_append] at h
    rcases h with h | h
    · split at h
      · rename_i hpick
        obtain rfl := List.mem_singleton.mp h
        exact hpick
      · cases h
    · exact Parts.pick_of_found h

theorem Parts.pick_of_found {pos : ℕ} : ∀ {ps : Parts K (List α)} {p},
    p ∈ ps.found pick size pos → pick p.2 = true
  | .nil, _, h => by cases h
  | .text s rest, p, h => by
    rw [Parts.found] at h
    exact Parts.pick_of_found h
  | .child t rest, p, h => by
    rw [Parts.found,List.mem_append] at h
    exact h.elim Tree.pick_of_found Parts.pick_of_found

end

/-- A node begins with a text of its own. -/
def Own (size : List α → ℕ) (t : Tree K (List α)) : Prop :=
  ∃ s rest, t.parts = .text s rest ∧ 0 < size s

theorem Own.size_pos (hsize : ∀ a b : List α, size (a ++ b) = size a + size b)
    {t : Tree K (List α)} (h : Own size t) : 0 < size t.render := by
  obtain ⟨s,rest,hparts,hs⟩ := h
  cases t with
  | node kind parts =>
    subst hparts
    rw [Tree.render,Parts.render,hsize]
    omega

theorem Tree.picked_of_found {pos : ℕ} {t : Tree K (List α)} {p}
    (h : p ∈ t.found pick size pos) : p.2 ∈ t.picked pick := by
  rw [← Tree.found_map_snd size pos t]
  exact List.mem_map_of_mem h

theorem Tree.found_of_picked (size : List α → ℕ) (pos : ℕ) {t p : Tree K (List α)}
    (h : p ∈ t.picked pick) : ∃ q ∈ t.found pick size pos, q.2 = p := by
  rwa [← Tree.found_map_snd size pos t,List.mem_map] at h

theorem Parts.picked_of_found {pos : ℕ} {ps : Parts K (List α)} {p}
    (h : p ∈ ps.found pick size pos) : p.2 ∈ ps.picked pick := by
  rw [← Parts.found_map_snd size pos ps]
  exact List.mem_map_of_mem h

mutual

theorem Tree.found_starts (hsize : ∀ a b : List α, size (a ++ b) = size a + size b) (pos : ℕ) :
    ∀ t : Tree K (List α), (∀ p ∈ t.picked pick, Own size p) →
      (t.found pick size pos).Pairwise fun p q => p.1 < q.1
  | .node kind parts, hown => by
    rw [Tree.picked,List.forall_mem_append] at hown
    rw [Tree.found,List.pairwise_append]
    refine ⟨by split <;> simp,Parts.found_starts hsize pos parts hown.2,fun p hp q hq => ?_⟩
    split at hp
    · rename_i hpick
      obtain rfl := List.mem_singleton.mp hp
      obtain ⟨s,rest,hparts,hs⟩ := hown.1 _ (by rw [if_pos hpick]; exact List.mem_singleton_self _)
      rw [Tree.parts] at hparts
      subst hparts
      rw [Parts.found] at hq
      have hbounds := Parts.found_bounds hsize hq
      simp only
      omega
    · cases hp

theorem Parts.found_starts (hsize : ∀ a b : List α, size (a ++ b) = size a + size b) (pos : ℕ) :
    ∀ ps : Parts K (List α), (∀ p ∈ ps.picked pick, Own size p) →
      (ps.found pick size pos).Pairwise fun p q => p.1 < q.1
  | .nil, _ => .nil
  | .text s rest, hown => Parts.found_starts hsize _ rest hown
  | .child t rest, hown => by
    rw [Parts.picked,List.forall_mem_append] at hown
    rw [Parts.found,List.pairwise_append]
    refine ⟨Tree.found_starts hsize pos t hown.1,Parts.found_starts hsize _ rest hown.2,
      fun p hp q hq => ?_⟩
    have hbounds := Tree.found_bounds hsize hp
    have hbounds' := Parts.found_bounds hsize hq
    have hpicked := (hown.1 _ (Tree.picked_of_found hp)).size_pos hsize
    omega

end

mutual

/-- The edits are apart just where no picked node has another one inside. -/
theorem Tree.apart_iff (hsize : ∀ a b : List α, size (a ++ b) = size a + size b) (pos : ℕ) :
    ∀ t : Tree K (List α), (∀ p ∈ t.picked pick, Own size p) →
      (((t.found pick size pos).map (editOf f size)).Pairwise Apart ↔ t.Flat pick)
  | .node kind parts, hown => by
    rw [Tree.picked,List.forall_mem_append] at hown
    rw [Tree.found,Tree.Flat]
    by_cases hp : pick (.node kind parts)
    · rw [if_pos hp,if_pos hp,List.singleton_append,List.map_cons,List.pairwise_cons]
      constructor
      · rintro ⟨houter,-⟩
        rw [← Parts.found_eq_nil pos,List.eq_nil_iff_forall_not_mem]
        intro q hq
        have hbounds := Parts.found_bounds hsize hq
        have hpicked := (hown.2 _ (Parts.picked_of_found hq)).size_pos hsize
        have hapart := houter _ (List.mem_map_of_mem hq)
        simp only [Apart,editOf,Tree.render] at hapart
        omega
      · intro hnone
        rw [(Parts.found_eq_nil pos).mpr hnone]
        simp
    · rw [if_neg hp,if_neg hp,List.nil_append]
      exact Parts.apart_iff hsize pos parts hown.2

theorem Parts.apart_iff (hsize : ∀ a b : List α, size (a ++ b) = size a + size b) (pos : ℕ) :
    ∀ ps : Parts K (List α), (∀ p ∈ ps.picked pick, Own size p) →
      (((ps.found pick size pos).map (editOf f size)).Pairwise Apart ↔ ps.Flat pick)
  | .nil, _ => iff_of_true .nil trivial
  | .text s rest, hown => Parts.apart_iff hsize _ rest hown
  | .child t rest, hown => by
    rw [Parts.picked,List.forall_mem_append] at hown
    rw [Parts.found,Parts.Flat,List.map_append,List.pairwise_append,
      Tree.apart_iff hsize _ _ hown.1,Parts.apart_iff hsize _ _ hown.2]
    refine ⟨fun h => ⟨h.1,h.2.1⟩,fun h => ⟨h.1,h.2,fun e he e' he' => ?_⟩⟩
    obtain ⟨p,hp,rfl⟩ := List.mem_map.mp he
    obtain ⟨q,hq,rfl⟩ := List.mem_map.mp he'
    have hbounds := Tree.found_bounds hsize hp
    have hbounds' := Parts.found_bounds hsize hq
    simp only [Apart,editOf]
    omega

end

end places

section cuts

variable {pick : Tree K (List α) → Bool} {size : List α → ℕ}

/-- A part of a text at its place. -/
def Cut (size : List α → ℕ) (pos : ℕ) (s : List α) (at' : ℕ) (part : List α) : Prop :=
  ∃ a b, s = a ++ part ++ b ∧ at' = pos + size a

theorem Cut.trans (hsize : ∀ a b : List α, size (a ++ b) = size a + size b) {pos i j : ℕ}
    {s part inner : List α} (h : Cut size pos s i part) (h' : Cut size i part j inner) :
    Cut size pos s j inner := by
  obtain ⟨a,b,rfl,rfl⟩ := h
  obtain ⟨c,d,rfl,rfl⟩ := h'
  exact ⟨a ++ c,d ++ b,by simp,by rw [hsize]; omega⟩

theorem Cut.append_left (hsize : ∀ a b : List α, size (a ++ b) = size a + size b) {pos i : ℕ}
    {s part : List α} (front : List α) (h : Cut size (pos + size front) s i part) :
    Cut size pos (front ++ s) i part := by
  obtain ⟨a,b,rfl,rfl⟩ := h
  exact ⟨front ++ a,b,by simp,by rw [hsize]; omega⟩

theorem Cut.append_right {pos i : ℕ} {s part : List α} (back : List α)
    (h : Cut size pos s i part) : Cut size pos (s ++ back) i part := by
  obtain ⟨a,b,rfl,rfl⟩ := h
  exact ⟨a,b ++ back,by simp,rfl⟩

theorem Parts.placed_cut (hsize : ∀ a b : List α, size (a ++ b) = size a + size b) {pos : ℕ} :
    ∀ {ps : Parts K (List α)} {p}, p ∈ ps.placed size pos →
      Cut size pos ps.render p.1 p.2.render
  | .nil, _, h => by cases h
  | .text s rest, p, h => .append_left hsize s (Parts.placed_cut hsize h)
  | .child t rest, p, h => by
    rw [Parts.placed] at h
    rcases List.mem_cons.mp h with rfl | h
    · exact ⟨[],rest.render,rfl,by have := hsize [] []; simp at this; omega⟩
    · exact .append_left hsize t.render (Parts.placed_cut hsize h)

mutual

theorem Tree.found_cut (hsize : ∀ a b : List α, size (a ++ b) = size a + size b) {pos : ℕ} :
    ∀ {t : Tree K (List α)} {p}, p ∈ t.found pick size pos →
      Cut size pos t.render p.1 p.2.render
  | .node kind parts, p, h => by
    rw [Tree.found,List.mem_append] at h
    rcases h with h | h
    · split at h
      · obtain rfl := List.mem_singleton.mp h
        exact ⟨[],[],by simp,by have := hsize [] []; simp at this; omega⟩
      · cases h
    · exact Parts.found_cut hsize h

theorem Parts.found_cut (hsize : ∀ a b : List α, size (a ++ b) = size a + size b) {pos : ℕ} :
    ∀ {ps : Parts K (List α)} {p}, p ∈ ps.found pick size pos →
      Cut size pos ps.render p.1 p.2.render
  | .nil, _, h => by cases h
  | .text s rest, p, h => by
    rw [Parts.found] at h
    exact .append_left hsize s (Parts.found_cut hsize h)
  | .child t rest, p, h => by
    rw [Parts.found,List.mem_append] at h
    rcases h with h | h
    · exact .append_right _ (Tree.found_cut hsize h)
    · exact .append_left hsize t.render (Parts.found_cut hsize h)

end

theorem Parts.placed_map_snd (size : List α → ℕ) (pos : ℕ) : ∀ ps : Parts K (List α),
    (ps.placed size pos).map Prod.snd = ps.children
  | .nil => rfl
  | .text s rest => by rw [Parts.placed,Parts.children,Parts.placed_map_snd]
  | .child t rest => by rw [Parts.placed,Parts.children,List.map_cons,Parts.placed_map_snd]

end cuts

end TerraformLs.TextTrees
