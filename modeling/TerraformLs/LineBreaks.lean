import Mathlib.Algebra.BigOperators.Group.List.Basic
import Mathlib.Algebra.GroupWithZero.Nat
import Mathlib.Data.List.Count
import Mathlib.Data.List.Sort

/-! Where the lines of a list begin, under different notions of what ends one. A
finer notion has as many breaks before a place as a coarser one and those it adds
there, and the start of a line is behind a place just where the breaks before that
place are too few. -/
namespace TerraformLs.LineBreaks

variable {α : Type*} (w : α → ℕ)

def weight (l : List α) : ℕ := (l.map w).sum

@[simp] theorem weight_nil : weight w [] = 0 := rfl

@[simp] theorem weight_cons (c : α) (l : List α) : weight w (c :: l) = w c + weight w l := by
  simp [weight]

@[simp] theorem weight_append (a b : List α) :
    weight w (a ++ b) = weight w a + weight w b := by
  simp [weight]

/-- Where the breaks of a list end, from an offset on. Whether an element ends a
line may depend on what follows it. -/
def breaksFrom (ends : α → List α → Bool) : ℕ → List α → List ℕ
  | _, [] => []
  | pos, c::cs =>
    if ends c cs then (pos + w c) :: breaksFrom ends (pos + w c) cs
    else breaksFrom ends (pos + w c) cs

/-- The start of each line. -/
def starts (ends : α → List α → Bool) (l : List α) : List ℕ := 0 :: breaksFrom w ends 0 l

variable {w} {ends coarse extra : α → List α → Bool} {pos : ℕ} {l : List α}

theorem mem_breaksFrom {x : ℕ} : x ∈ breaksFrom w ends pos l ↔
    ∃ a c b, l = a ++ c :: b ∧ ends c b = true ∧ x = pos + weight w a + w c := by
  induction l generalizing pos with
  | nil => simp [breaksFrom]
  | cons d l ih =>
    have hstep : x ∈ breaksFrom w ends pos (d :: l) ↔
        (ends d l = true ∧ x = pos + w d) ∨ x ∈ breaksFrom w ends (pos + w d) l := by
      rw [breaksFrom]
      split_ifs with hd <;> simp [hd]
    rw [hstep,ih]
    constructor
    · rintro (⟨hd,rfl⟩ | ⟨a,c,b,rfl,hc,rfl⟩)
      · exact ⟨[],d,l,rfl,hd,by simp⟩
      · exact ⟨d :: a,c,b,rfl,hc,by rw [weight_cons]; omega⟩
    · rintro ⟨a,c,b,hl,hc,rfl⟩
      rcases a with _ | ⟨e,a⟩
      · cases hl
        exact .inl ⟨hc,by simp⟩
      · cases hl
        exact .inr ⟨a,c,b,rfl,hc,by rw [weight_cons]; omega⟩

theorem le_of_mem_breaksFrom {x : ℕ} (h : x ∈ breaksFrom w ends pos l) :
    x ≤ pos + weight w l := by
  obtain ⟨a,c,b,rfl,-,rfl⟩ := mem_breaksFrom.mp h
  rw [weight_append,weight_cons]
  omega

theorem lt_of_mem_breaksFrom (hw : ∀ c, 0 < w c) {x : ℕ} (h : x ∈ breaksFrom w ends pos l) :
    pos < x := by
  obtain ⟨a,c,b,-,-,rfl⟩ := mem_breaksFrom.mp h
  have hc := hw c
  omega

theorem breaksFrom_pairwise (hw : ∀ c, 0 < w c) :
    (breaksFrom w ends pos l).Pairwise (· < ·) := by
  induction l generalizing pos with
  | nil => exact List.Pairwise.nil
  | cons c l ih =>
    rw [breaksFrom]
    split_ifs
    · exact List.pairwise_cons.mpr ⟨fun x hx => lt_of_mem_breaksFrom hw hx,ih⟩
    · exact ih

theorem starts_pairwise (hw : ∀ c, 0 < w c) : (starts w ends l).Pairwise (· < ·) :=
  List.pairwise_cons.mpr ⟨fun _ hx => lt_of_mem_breaksFrom hw hx,breaksFrom_pairwise hw⟩

theorem le_of_mem_starts {x : ℕ} (h : x ∈ starts w ends l) : x ≤ weight w l := by
  rcases List.mem_cons.mp h with rfl | h
  · exact Nat.zero_le _
  · simpa using le_of_mem_breaksFrom h

/-- The breaks of a notion that adds some to another one. -/
theorem countP_breaksFrom (p : ℕ → Bool)
    (hor : ∀ c cs, ends c cs = (coarse c cs || extra c cs))
    (hand : ∀ c cs, coarse c cs = true → extra c cs = false) :
    (breaksFrom w ends pos l).countP p =
      (breaksFrom w coarse pos l).countP p + (breaksFrom w extra pos l).countP p := by
  induction l generalizing pos with
  | nil => rfl
  | cons c l ih =>
    have hc := hor c l
    have hx := hand c l
    simp only [breaksFrom]
    cases hcoarse : coarse c l <;> cases hextra : extra c l <;>
      simp_all [List.countP_cons] <;> omega

/-! ## The rank of a line start -/

section rank

variable {starts : List ℕ} {last x : ℕ}

/-- In an ascending list an entry lies before a place just where more entries than
its index do. Behind the list stands a last place. -/
theorem getD_lt_iff (hs : starts.Pairwise (· < ·)) (hx : x ≤ last) (n : ℕ) :
    starts.getD n last < x ↔ n < starts.countP (· < x) := by
  induction starts generalizing n with
  | nil => simpa using hx
  | cons s starts ih =>
    obtain ⟨hlow,hs⟩ := List.pairwise_cons.mp hs
    by_cases hsx : s < x
    · cases n with
      | zero => simp [hsx]
      | succ n => simpa [hsx] using ih hs n
    · have hnone : starts.countP (· < x) = 0 := by
        rw [List.countP_eq_zero]
        intro t ht
        have hst := hlow t ht
        simp only [decide_eq_true_eq]
        omega
      cases n with
      | zero => simp [hnone,hsx]
      | succ n => simpa [hsx,hnone] using (ih hs n).not.mpr (by omega)

theorem getD_le (hall : ∀ y ∈ starts, y ≤ last) (n : ℕ) : starts.getD n last ≤ last := by
  rw [List.getD_eq_getElem?_getD]
  cases h : starts[n]? with
  | none => exact Nat.le_refl _
  | some y => exact hall y (List.mem_of_getElem? h)

theorem countP_getD_le (hs : starts.Pairwise (· < ·)) (hall : ∀ y ∈ starts, y ≤ last) (n : ℕ) :
    starts.countP (· < starts.getD n last) ≤ n := by
  by_contra h
  exact lt_irrefl _ ((getD_lt_iff hs (getD_le hall n) n).mpr (Nat.lt_of_not_le h))

theorem getD_mono (hs : starts.Pairwise (· < ·)) (hall : ∀ y ∈ starts, y ≤ last) {m n : ℕ}
    (h : m ≤ n) : starts.getD m last ≤ starts.getD n last := by
  by_contra! hlt
  have hn := (getD_lt_iff hs (getD_le hall m) n).mp hlt
  have hm := countP_getD_le hs hall m
  omega

/-- As many entries lie before an entry as its index says. -/
theorem countP_getD (hs : starts.Pairwise (· < ·)) (hall : ∀ y ∈ starts, y ≤ last) {n : ℕ}
    (hn : n < starts.length) : starts.countP (· < starts.getD n last) = n := by
  refine (countP_getD_le hs hall n).antisymm (Nat.le_of_not_lt fun hlt => ?_)
  set m := starts.countP (· < starts.getD n last) with hm
  have hnot : ¬starts.getD m last < starts.getD n last := fun h =>
    lt_irrefl m ((getD_lt_iff hs (getD_le hall n) m).mp h)
  have hmn : starts[m] < starts[n] := List.pairwise_iff_getElem.mp hs m n (hlt.trans hn) hn hlt
  simp only [List.getD_eq_getElem?_getD,List.getElem?_eq_getElem hn,
    List.getElem?_eq_getElem (hlt.trans hn),Option.getD_some] at hnot
  exact hnot hmn

end rank

/-! ## Two notions side by side -/

section refined

variable (hw : ∀ c, 0 < w c) (hor : ∀ c cs, ends c cs = (coarse c cs || extra c cs))
  (hand : ∀ c cs, coarse c cs = true → extra c cs = false)

include hw hor hand

/-- A line of the finer notion starts before a place just where the breaks of the coarser
one and the added ones before that place are too many for its number. -/
theorem starts_getD_lt_iff {x : ℕ} (hx : x ≤ weight w l) (n : ℕ) :
    (starts w ends l).getD n (weight w l) < x ↔
      n < (starts w coarse l).countP (· < x) + (breaksFrom w extra 0 l).countP (· < x) := by
  rw [getD_lt_iff (starts_pairwise hw) hx,starts,List.countP_cons,countP_breaksFrom _ hor hand,
    starts,List.countP_cons]
  omega

theorem starts_getD_le (n : ℕ) :
    (starts w ends l).getD n (weight w l) ≤ (starts w coarse l).getD n (weight w l) := by
  by_contra! h
  set x := (starts w coarse l).getD n (weight w l) + 1
  have hx : x ≤ weight w l :=
    (Nat.succ_le_of_lt h).trans (getD_le (fun _ hy => le_of_mem_starts hy) n)
  have hcoarse := (getD_lt_iff (starts_pairwise hw) hx n).mp (Nat.lt_succ_self _)
  have hlt := (starts_getD_lt_iff hw hor hand hx n).mpr (by omega)
  omega

/-- The two agree on the start of a line where no added break ends before it. -/
theorem starts_getD_eq_iff {n : ℕ} (hn : (starts w coarse l).countP
      (· < (starts w coarse l).getD n (weight w l)) = n) :
    (starts w ends l).getD n (weight w l) = (starts w coarse l).getD n (weight w l) ↔
      (breaksFrom w extra 0 l).countP (· < (starts w coarse l).getD n (weight w l)) = 0 := by
  have hle := starts_getD_le hw hor hand (l:=l) n
  have hlast : (starts w coarse l).getD n (weight w l) ≤ weight w l :=
    getD_le (fun _ hy => le_of_mem_starts hy) n
  have hlt := starts_getD_lt_iff hw hor hand hlast n
  rw [hn] at hlt
  omega

end refined

/-! ## The lines themselves -/

/-- The lines of a list, each with the element that ends it. -/
def lines (ends : α → List α → Bool) : List α → List (List α)
  | [] => []
  | c::cs =>
    if ends c cs then [c] :: lines ends cs
    else match lines ends cs with
      | [] => [[c]]
      | line::rest => (c :: line) :: rest

theorem flatten_lines (ends : α → List α → Bool) (l : List α) : (lines ends l).flatten = l := by
  induction l with
  | nil => rfl
  | cons c l ih =>
    rw [lines]
    split_ifs
    · rw [List.flatten_cons,ih,List.singleton_append]
    · cases h : lines ends l <;> rw [h] at ih <;> simp [← ih]

/-- What follows the first lines has the lines that are left. -/
theorem lines_drop (ends : α → List α → Bool) (l : List α) (k : ℕ) :
    lines ends ((lines ends l).drop k).flatten = (lines ends l).drop k := by
  induction l generalizing k with
  | nil => simp [lines]
  | cons c l ih =>
    cases k with
    | zero => rw [List.drop_zero,flatten_lines]
    | succ k =>
      rw [lines]
      split_ifs
      · exact ih k
      · cases h : lines ends l with
        | nil => simp [lines]
        | cons line rest => simpa [h] using ih (k+1)

theorem pos_getD_starts (ends : α → List α → Bool) (pos : ℕ) (l : List α) (k : ℕ) :
    (pos :: breaksFrom w ends pos l).getD k (pos + weight w l) =
      pos + weight w ((lines ends l).take k).flatten := by
  induction l generalizing pos k with
  | nil => cases k <;> simp [lines,breaksFrom]
  | cons c l ih =>
    cases k with
    | zero => simp
    | succ k =>
      have hnext := ih (pos + w c)
      rw [List.getD_cons_succ,breaksFrom,lines,weight_cons,← Nat.add_assoc]
      split_ifs
      · rw [hnext k]
        simp [Nat.add_assoc]
      · have hlater := hnext (k+1)
        rw [List.getD_cons_succ] at hlater
        rw [hlater]
        cases h : lines ends l with
        | nil => simp
        | cons line rest => simp [Nat.add_assoc]

/-- A line starts behind the lines before it. -/
theorem getD_starts (ends : α → List α → Bool) (l : List α) (k : ℕ) :
    (starts w ends l).getD k (weight w l) = weight w ((lines ends l).take k).flatten := by
  simpa [starts] using pos_getD_starts (w:=w) ends 0 l k

theorem ne_nil_of_mem_lines {line : List α} (h : line ∈ lines ends l) : line ≠ [] := by
  induction l with
  | nil => cases h
  | cons c l ih =>
    rw [lines] at h
    split_ifs at h
    · rcases List.mem_cons.mp h with rfl | h
      · simp
      · exact ih h
    · split at h
      · rw [List.mem_singleton.mp h]
        simp
      · rename_i first rest hlines
        rcases List.mem_cons.mp h with rfl | h
        · simp
        · exact ih (hlines ▸ List.mem_cons_of_mem first h)

theorem weight_take_lt (hw : ∀ c, 0 < w c) {m n : ℕ} (hmn : m < n)
    (hn : n ≤ (lines ends l).length) : weight w ((lines ends l).take m).flatten <
      weight w ((lines ends l).take n).flatten := by
  obtain ⟨c,line,hline⟩ := List.exists_cons_of_ne_nil
    (ne_nil_of_mem_lines (List.getElem_mem (hmn.trans_le hn)))
  have hsplit : (lines ends l).take n = (lines ends l).take m ++ (c :: line) ::
      ((lines ends l).take n).drop (m+1) := by
    conv_lhs => rw [← List.take_append_drop m ((lines ends l).take n)]
    rw [List.take_take,Nat.min_eq_left hmn.le,List.drop_eq_getElem_cons (by simp; omega),
      List.getElem_take,hline]
  have hc := hw c
  rw [hsplit]
  simp only [List.flatten_append,List.flatten_cons,weight_append,weight_cons]
  omega

/-- Before the start of a line lie the starts of those before it. -/
theorem countP_line_start (hw : ∀ c, 0 < w c) {n : ℕ} (hn : n ≤ (lines ends l).length) :
    (starts w ends l).countP (· < (starts w ends l).getD n (weight w l)) = n := by
  have hpair : (starts w ends l).Pairwise (· < ·) := starts_pairwise hw
  have hall : ∀ y ∈ starts w ends l, y ≤ weight w l := fun _ hy => le_of_mem_starts hy
  refine (countP_getD_le hpair hall n).antisymm (Nat.le_of_not_lt fun hlt => ?_)
  have hstart := weight_take_lt hw hlt hn
  rw [← getD_starts,← getD_starts] at hstart
  exact lt_irrefl _ ((getD_lt_iff hpair (getD_le hall n) _).mp hstart)

/-! ## The line around a place -/

section around

variable {x y z : List α}

/-- Elements that end no line, up to one that does or to the end of the list. -/
structure Unbroken (ends : α → List α → Bool) (y z : List α) : Prop where
  inside : ∀ a c b, y = a ++ c :: b → ends c (b ++ z) = false
  stop : z = [] ∨ ∃ c b, z = c :: b ∧ ends c b = true

theorem exists_behind {a b : List α} {c : α} (h : x ++ y = a ++ c :: b)
    (hx : weight w x < weight w a + w c) : ∃ a', a = x ++ a' ∧ y = a' ++ c :: b := by
  rcases List.append_eq_append_iff.mp h with ⟨a',ha,hy⟩ | ⟨x',hx',hb⟩
  · exact ⟨a',ha,hy⟩
  · cases x' with
    | nil => exact ⟨[],by simpa using hx'.symm,by simpa using hb.symm⟩
    | cons d x' =>
      obtain ⟨rfl,-⟩ := List.cons.inj hb
      rw [hx',weight_append,weight_cons] at hx
      omega

/-- No line starts behind a place before the first break there. -/
theorem le_of_start_behind (h : Unbroken ends y z) {s : ℕ} (hs : s ∈ starts w ends (x ++ (y ++ z)))
    (hx : weight w x < s) : weight w (x ++ (y ++ z.take 1)) ≤ s := by
  rcases List.mem_cons.mp hs with rfl | hs
  · omega
  obtain ⟨a,c,b,hsplit,hc,rfl⟩ := mem_breaksFrom.mp hs
  rw [Nat.zero_add] at hx ⊢
  obtain ⟨a',rfl,hyz⟩ := exists_behind hsplit hx
  rcases List.append_eq_append_iff.mp hyz with ⟨z',rfl,hz⟩ | ⟨y',hy',hb⟩
  · have hfirst : weight w (z.take 1) ≤ weight w z' + w c := by
      rw [hz]
      cases z' <;> simp [Nat.add_assoc]
    simp only [weight_append]
    omega
  · cases y' with
    | nil =>
      rw [← (show c :: b = z from hb)]
      simp [hy',Nat.add_assoc]
    | cons d y' =>
      obtain ⟨rfl,hrest⟩ := List.cons.inj (hb.trans (List.cons_append ..))
      rw [hrest,h.inside a' c y' hy'] at hc
      cases hc

/-- The last start up to a place, and the first start behind it. -/
theorem line_around (hw : ∀ c, 0 < w c) (h : Unbroken ends y z) (hl : l = x ++ (y ++ z)) :
    let n := (starts w ends l).countP (· ≤ weight w x) - 1
    n < (starts w ends l).length ∧ (starts w ends l).getD n (weight w l) ≤ weight w x ∧
      (starts w ends l).getD (n+1) (weight w l) = weight w (x ++ (y ++ z.take 1)) := by
  set st := starts w ends l with hst
  set n := st.countP (· ≤ weight w x) - 1 with hn
  have hpair : st.Pairwise (· < ·) := starts_pairwise hw
  have hall : ∀ s ∈ st, s ≤ weight w l := fun _ hs => le_of_mem_starts hs
  have hle : st.countP (· ≤ weight w x) = st.countP (· < weight w x + 1) := by
    simp only [Nat.lt_add_one_iff]
  have hpos : 0 < st.countP (· ≤ weight w x) := by
    rw [List.countP_pos_iff]
    exact ⟨0,List.mem_cons_self,by simp⟩
  have hstop : weight w (x ++ (y ++ z.take 1)) ≤ weight w l := by
    rw [hl]
    conv_rhs => rw [← List.take_append_drop 1 z]
    simp only [weight_append]
    omega
  have hin : (starts w ends l).getD n (weight w l) ≤ weight w x := by
    by_cases hlast : weight w x < weight w l
    · have hlt := (getD_lt_iff hpair hlast n).mpr (by rw [← hle]; omega)
      exact Nat.lt_succ_iff.mp hlt
    · exact (getD_le hall n).trans (Nat.le_of_not_lt hlast)
  refine ⟨?_,hin,?_⟩
  · exact (Nat.sub_lt hpos Nat.one_pos).trans_le List.countP_le_length
  refine Nat.le_antisymm ?_ ?_
  · rcases h.stop with rfl | ⟨c,b,rfl,hc⟩
    · have heq : weight w l = weight w (x ++ (y ++ List.take 1 ([] : List α))) := by rw [hl]; simp
      rw [← heq]
      exact getD_le hall _
    · -- the break itself is a start, and not one of those up to the place
      have hmem : weight w (x ++ (y ++ (c :: b).take 1)) ∈ st := by
        refine List.mem_cons_of_mem _ (mem_breaksFrom.mpr ⟨x ++ y,c,b,by rw [hl]; simp,hc,?_⟩)
        simp [Nat.add_assoc]
      obtain ⟨i,hi,hget⟩ := List.mem_iff_getElem.mp hmem
      have hgetD : st.getD i (weight w l) = weight w (x ++ (y ++ (c :: b).take 1)) := by
        rw [List.getD_eq_getElem?_getD,List.getElem?_eq_getElem hi,Option.getD_some,hget]
      have hc := hw c
      rw [← hgetD]
      refine getD_mono hpair hall ?_
      by_contra! hlt
      have hmono := getD_mono hpair hall (Nat.lt_succ_iff.mp hlt)
      rw [hgetD] at hmono
      have := hmono.trans hin
      simp at this
      omega
  · refine Nat.le_of_not_lt fun hlt => ?_
    have hcount := (getD_lt_iff hpair hstop (n+1)).mp hlt
    have hsub : st.countP (· < weight w (x ++ (y ++ z.take 1))) ≤ st.countP (· ≤ weight w x) := by
      refine List.countP_mono_left fun s hs hs' => ?_
      by_contra hnot
      have hbehind := le_of_start_behind h (by rwa [hst,hl] at hs) (by simpa using hnot)
      simp only [decide_eq_true_eq] at hs'
      omega
    omega

end around
end TerraformLs.LineBreaks
