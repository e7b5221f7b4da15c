import TerraformLs.Lines

/-! Lines of a text that are blanked: a filling takes the place of each of their
elements, the line ends stay. -/
namespace TerraformLs

variable {α : Type} [DecidableEq α]

/-- Nothing of the line is left. -/
def EndsLine (sep : α) (rest : List α) : Prop := rest = [] ∨ rest.head? = some sep

instance (sep : α) (rest : List α) : Decidable (EndsLine sep rest) := by
  unfold EndsLine
  infer_instance

/-- `fill` is what takes the place of an element. -/
def blankWith (sep ret : α) (fill : α → List α) (blanked : List ℕ) : ℕ → List α → List α
  | _, [] => []
  | n, c::rest =>
    if c = sep then c :: blankWith sep ret fill blanked (n+1) rest
    else if n ∈ blanked ∧ ¬ (c = ret ∧ EndsLine sep rest) then
      fill c ++ blankWith sep ret fill blanked n rest
    else c :: blankWith sep ret fill blanked n rest

variable {sep ret : α} {fill : α → List α} {blanked : List ℕ}

theorem blankWith_append {a : List α} (h : a = [] ∨ a.getLast? = some sep) (n : ℕ)
    (b : List α) : blankWith sep ret fill blanked n (a ++ b) =
      blankWith sep ret fill blanked n a ++ blankWith sep ret fill blanked (n + a.count sep) b := by
  induction a generalizing n with
  | nil => rfl
  | cons c a ih =>
    rcases List.eq_nil_or_concat a with rfl | ⟨init,d,rfl⟩
    · obtain rfl : c = sep := by simpa using h
      simp [blankWith]
    · have hlast : init.concat d = [] ∨ (init.concat d).getLast? = some sep := by
        simpa [List.getLast?_cons] using h
      have hends : EndsLine sep (init.concat d ++ b) ↔ EndsLine sep (init.concat d) := by
        cases init <;> simp [EndsLine]
      rw [List.cons_append,blankWith,blankWith,List.count_cons]
      simp only [hends,ih hlast,beq_iff_eq]
      split_ifs <;> simp [Nat.add_assoc,Nat.add_comm 1]

/-- A line without its line end, blanked. -/
def blankLine (ret : α) (fill : α → List α) (line : List α) : List α :=
  if line.getLast? = some ret then line.dropLast.flatMap fill ++ [ret] else line.flatMap fill

theorem blankWith_line {line after : List α} (hline : sep ∉ line) (hafter : EndsLine sep after)
    (n : ℕ) : blankWith sep ret fill blanked n (line ++ after) =
      (if n ∈ blanked then blankLine ret fill line else line) ++
        blankWith sep ret fill blanked n after := by
  induction line with
  | nil => simp [blankLine]
  | cons c line ih =>
    obtain ⟨hc,hline⟩ := not_or.mp (fun h => hline (List.mem_cons.mpr h))
    rw [List.cons_append,blankWith,if_neg (Ne.symm hc),ih hline]
    by_cases hn : n ∈ blanked
    · cases line with
      | nil =>
        by_cases hret : c = ret <;> simp [hn,hret,hafter,blankLine]
      | cons d line =>
        have hends : ¬ EndsLine sep ((d :: line) ++ after) := by
          have hd := (not_or.mp (fun h => hline (List.mem_cons.mpr h))).1
          simp [EndsLine,Ne.symm hd]
        simp only [hn,hends,blankLine,and_false,not_false_eq_true,and_self,if_true,
          List.getLast?_cons_cons,List.dropLast_cons_cons,List.flatMap_cons]
        split_ifs <;> simp
    · simp [hn]

theorem blankWith_of_not_mem (n : ℕ) (a : List α)
    (h : ∀ i, n ≤ i → i ≤ n + a.count sep → i ∉ blanked) :
    blankWith sep ret fill blanked n a = a := by
  induction a generalizing n with
  | nil => rfl
  | cons c a ih =>
    rw [blankWith]
    split_ifs with hc hn
    · subst hc
      rw [ih (n+1) (fun i hi hle => h i (by omega) (by rw [List.count_cons_self]; omega))]
    · exact absurd hn.1 (h n (Nat.le_refl n) (Nat.le_add_right n _))
    · rw [List.count_cons_of_ne hc] at h
      rw [ih n h]

/-- The last line of a text that ends with a line end has no elements. -/
theorem blankWith_of_closed (n : ℕ) {a : List α} (hlast : a = [] ∨ a.getLast? = some sep)
    (h : ∀ i, n ≤ i → i < n + a.count sep → i ∉ blanked) :
    blankWith sep ret fill blanked n a = a := by
  induction a generalizing n with
  | nil => rfl
  | cons c a ih =>
    have hrest : a ≠ [] → a.getLast? = some sep := fun ha => by
      obtain ⟨d,a,rfl⟩ := List.exists_cons_of_ne_nil ha
      simpa using hlast
    have hclosed : a = [] ∨ a.getLast? = some sep := or_iff_not_imp_left.mpr hrest
    rw [blankWith]
    split_ifs with hc hn
    · subst hc
      rw [ih (n+1) hclosed
        (fun i hi hle => h i (by omega) (by rw [List.count_cons_self]; omega))]
    · have ha : a ≠ [] := by
        rintro rfl
        exact hc (by simpa using hlast)
      have hcount := List.count_pos_iff.mpr (List.mem_of_getLast? (hrest ha))
      rw [List.count_cons_of_ne hc] at h
      exact absurd hn.1 (h n (Nat.le_refl n) (by omega))
    · rw [List.count_cons_of_ne hc] at h
      rw [ih n hclosed h]

/-- Blanking the one line of a text. -/
theorem blankWith_lineAt {whole before line after : List α} {n : ℕ}
    (h : LineAt sep whole n before line after) (blanked : List ℕ) :
    blankWith sep ret fill blanked 0 whole = blankWith sep ret fill blanked 0 before ++
      ((if n ∈ blanked then blankLine ret fill line else line) ++
        blankWith sep ret fill blanked n after) := by
  rw [h.split,blankWith_append h.start,blankWith_line h.inside h.stop,Nat.zero_add,h.number]

section lines

variable (hfill : ∀ c, sep ∉ fill c)

include hfill in
theorem count_blankWith (n : ℕ) (a : List α) :
    (blankWith sep ret fill blanked n a).count sep = a.count sep := by
  induction a generalizing n with
  | nil => rfl
  | cons c a ih =>
    rw [blankWith]
    split_ifs with hc hn
    · rw [List.count_cons,List.count_cons,ih]
    · rw [List.count_append,List.count_eq_zero_of_not_mem (hfill c),ih,
        List.count_cons_of_ne hc,Nat.zero_add]
    · rw [List.count_cons,List.count_cons,ih]

theorem getLast?_blankWith {a : List α} (h : a.getLast? = some sep) (n : ℕ) :
    (blankWith sep ret fill blanked n a).getLast? = some sep := by
  obtain ⟨init,rfl⟩ := List.getLast?_eq_some_iff.mp h
  induction init generalizing n with
  | nil => simp [blankWith]
  | cons c init ih =>
    have hlast := fun m => ih m (by simp)
    rw [List.cons_append,blankWith]
    split_ifs <;> simp [List.getLast?_cons,List.getLast?_append,hlast]

include hfill in
/-- The lines of a blanked text. -/
theorem lineAt_blankWith (hret : ret ≠ sep) {whole before line after : List α} {n : ℕ}
    (h : LineAt sep whole n before line after) :
    LineAt sep (blankWith sep ret fill blanked 0 whole) n
      (blankWith sep ret fill blanked 0 before)
      (if n ∈ blanked then blankLine ret fill line else line)
      (blankWith sep ret fill blanked n after) := by
  refine ⟨blankWith_lineAt h blanked,?_,?_,?_,?_⟩
  · rcases h.start with rfl | hstart
    · exact .inl rfl
    · exact .inr (getLast?_blankWith hstart 0)
  · have hflat : ∀ l : List α, sep ∉ l.flatMap fill := fun l hmem => by
      obtain ⟨c,-,hc⟩ := List.mem_flatMap.mp hmem
      exact hfill c hc
    split_ifs
    · unfold blankLine
      split_ifs
      · simp [hflat,Ne.symm hret]
      · exact hflat line
    · exact h.inside
  · rcases h.stop with rfl | hhead
    · exact .inl rfl
    · obtain ⟨rest,rfl⟩ := List.head?_eq_some_iff.mp hhead
      exact .inr (by simp [blankWith])
  · rw [count_blankWith hfill,h.number]

end lines

theorem blankWith_plain {a : List α} (h : ∀ c ∈ a, c ≠ sep ∧ c ≠ ret) (n : ℕ) (b : List α) :
    blankWith sep ret fill blanked n (a ++ b) =
      (if n ∈ blanked then a.flatMap fill else a) ++ blankWith sep ret fill blanked n b := by
  induction a with
  | nil => simp
  | cons c a ih =>
    obtain ⟨hc,ha⟩ := List.forall_mem_cons.mp h
    rw [List.cons_append,blankWith,if_neg hc.1,ih ha]
    by_cases hn : n ∈ blanked
    · simp [hn,hc.2]
    · simp [hn]

section single

variable {x : α} (hsep : x ≠ sep) (hret : x ≠ ret)

@[simp] theorem length_blankWith (n : ℕ) (a : List α) :
    (blankWith sep ret (fun _ => [x]) blanked n a).length = a.length := by
  induction a generalizing n with
  | nil => rfl
  | cons c a ih =>
    rw [blankWith]
    split_ifs <;> simp [ih]

include hsep in
theorem endsLine_blankWith (n : ℕ) (a : List α) :
    EndsLine sep (blankWith sep ret (fun _ => [x]) blanked n a) ↔ EndsLine sep a := by
  cases a with
  | nil => rfl
  | cons c a =>
    rw [blankWith]
    split_ifs with hc hn
    · simp [EndsLine]
    · simp [EndsLine,hc,hsep]
    · simp [EndsLine]

include hsep in
theorem count_take_blankWith (n i : ℕ) (a : List α) :
    ((blankWith sep ret (fun _ => [x]) blanked n a).take i).count sep = (a.take i).count sep := by
  induction a generalizing n i with
  | nil => rfl
  | cons c a ih =>
    cases i with
    | zero => rfl
    | succ i =>
      rw [blankWith]
      split_ifs with hc hn
      · simp [hc,ih]
      · simp [hc,hsep,ih]
      · simp [hc,ih]

include hsep hret in
/-- Blanking more lines of a text in which some are blanked. -/
theorem blankWith_blankWith (more : List ℕ) (n : ℕ) (a : List α) :
    blankWith sep ret (fun _ => [x]) more n (blankWith sep ret (fun _ => [x]) blanked n a) =
      blankWith sep ret (fun _ => [x]) (blanked ++ more) n a := by
  induction a generalizing n with
  | nil => rfl
  | cons c a ih =>
    have hends : EndsLine sep (blankWith sep ret (fun _ => [x]) blanked n a) ↔ EndsLine sep a :=
      endsLine_blankWith hsep n a
    by_cases hc : c = sep
    · simp [blankWith,hc,ih]
    · by_cases hkeep : c = ret ∧ EndsLine sep a
      · obtain ⟨rfl,hkeep⟩ := hkeep
        simp [blankWith,hc,hkeep,hends,ih]
      · by_cases hn : n ∈ blanked
        · simp [blankWith,hc,hkeep,hn,hsep,hret,ih]
        · simp [blankWith,hc,hkeep,hn,hends,ih]

/-- What stands at a place of the blanked text. -/
theorem getElem?_blankWith (n i : ℕ) (a : List α) :
    (blankWith sep ret (fun _ => [x]) blanked n a)[i]? = a[i]?.map fun c =>
      if c ≠ sep ∧ n + (a.take i).count sep ∈ blanked ∧ ¬ (c = ret ∧ EndsLine sep (a.drop (i+1)))
      then x else c := by
  induction a generalizing n i with
  | nil => rfl
  | cons c a ih =>
    rw [blankWith]
    cases i with
    | zero =>
      by_cases hc : c = sep
      · simp [hc]
      · rw [if_neg hc]
        simp only [List.take_zero,List.count_nil,Nat.add_zero,List.drop_succ_cons,
          List.drop_zero,List.getElem?_cons_zero,Option.map_some,ne_eq,hc,not_false_eq_true,
          true_and]
        split_ifs <;> rfl
    | succ i =>
      split_ifs with hc hn
      · simp [hc,ih,Nat.add_assoc,Nat.add_comm 1]
      · simp [hc,ih,List.count_cons_of_ne]
      · simp [hc,ih,List.count_cons_of_ne]

end single

end TerraformLs
