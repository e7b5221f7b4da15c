import Mathlib.Data.Prod.Lex
import Mathlib.Data.String.Basic
import TerraformLs.Comparators
import TerraformLs.KeyedMap
import TerraformLs.NewerVersions

/-! Which of the provider binaries on disk are kept: one for each provider, that of
the locked version or else of the highest one. -/
namespace TerraformLs
namespace Discovery

open Comparators

structure ProviderBinary where
  binary : String
  registryHost : String
  «namespace» : String
  name : String
  version : String
  deriving DecidableEq

/-- The registry coordinates of a binary. -/
def ProviderBinary.key (b : ProviderBinary) : String ×ₗ String ×ₗ String :=
  toLex (b.registryHost,toLex (b.namespace,b.name))

abbrev Pins := KeyedMap (String × String × String) String

/-- The mirrors of the registry count as one host. -/
def canon (host : String) : String :=
  if host = "registry.opentofu.org" ∨ host = "registry.terraform.io" then "registry.terraform.io"
  else host

/-- Is the binary of the locked version? -/
def isPinned (pins : Pins) (b : ProviderBinary) : Bool :=
  (pins.lookup (canon b.registryHost,b.namespace,b.name)).any (· = b.version)

variable {V : Type} [LinearOrder V] (parse : String → Option V)

/-- Versions are compared as such if both are ones, else as texts. -/
def versionCmp : String → String → Ordering := mixed parse

/-- Highest first within a provider. -/
def highestOrder (a b : ProviderBinary) : Ordering :=
  (cmp a.key b.key).then (versionCmp parse b.version a.version)

/-- The locked version first within a provider, then the highest. -/
def pinOrder (pins : Pins) (a b : ProviderBinary) : Ordering :=
  (cmp a.key b.key).then
    ((cmp (isPinned pins b) (isPinned pins a)).then (versionCmp parse b.version a.version))

variable (S : SortBy)

def dedupeProvidersKeepHighest (bins : List ProviderBinary) : Option (List ProviderBinary) :=
  (S.sort (highestOrder parse) bins).map (List.destutter fun a b => a.key ≠ b.key)

def dedupeProvidersUsingPins (bins : List ProviderBinary) (pins : Pins) :
    Option (List ProviderBinary) :=
  (S.sort (pinOrder parse pins) bins).map (List.destutter fun a b => a.key ≠ b.key)

/-- Without locked versions the highest ones are kept. -/
theorem dedupeProviders_empty (bins : List ProviderBinary) :
    dedupeProvidersUsingPins parse S bins ∅ = dedupeProvidersKeepHighest parse S bins := by
  have horder : pinOrder parse ∅ = highestOrder parse := by
    funext a b
    have hpin : ∀ b, isPinned ∅ b = false := fun _ => rfl
    rw [pinOrder,hpin,hpin,cmp_self_eq_eq,Ordering.eq_then,highestOrder]
  rw [dedupeProvidersUsingPins,horder,dedupeProvidersKeepHighest]

/-- One binary is kept for each provider: the locked one, or else a highest. -/
structure Picks (bins : List ProviderBinary) (pins : Pins) (out : List ProviderBinary) : Prop where
  found : ∀ c ∈ out, c ∈ bins
  one : out.Pairwise fun a b => a.key ≠ b.key
  each : ∀ b ∈ bins, ∃ c ∈ out, c.key = b.key
  pin : ∀ c ∈ out, ∀ b ∈ bins, b.key = c.key → isPinned pins b → c.version = b.version
  highest : ∀ c ∈ out, (∀ b ∈ bins, b.key = c.key → ¬isPinned pins b) →
    ∀ b ∈ bins, b.key = c.key → (versionCmp parse b.version c.version).isLE

/-- The sort is given an order, and it keeps the right versions whatever the order
of the list. -/
structure Deduped (bins : List ProviderBinary) (pins : Pins) : Prop where
  ordered : TotalOn (pinOrder parse pins) bins
  picks : ∃ out, dedupeProvidersUsingPins parse S bins pins = some out ∧
    Picks parse bins pins out ∧ ∀ bins', bins'.Perm bins →
      ∃ out', dedupeProvidersUsingPins parse S bins' pins = some out' ∧
        ∀ c ∈ out, ∀ c' ∈ out', c'.key = c.key → versionCmp parse c'.version c.version = .eq

/-- Among the binaries of a provider that are not locked, no name that is no version
stands in text order between two versions that come the other way round. -/
def NoOddBetween (bins : List ProviderBinary) (pins : Pins) : Prop :=
  ∀ a ∈ bins, ∀ b ∈ bins, ∀ c ∈ bins, a.key = c.key → b.key = c.key →
    ¬isPinned pins a → ¬isPinned pins b → ¬isPinned pins c →
    ∀ v w, parse a.version = some v → parse b.version = some w → parse c.version = none →
      a.version < c.version → c.version < b.version → v < w

variable {parse S} {bins : List ProviderBinary} {pins : Pins}

theorem pinned_version {a b : ProviderBinary} (hkey : a.key = b.key) (ha : isPinned pins a)
    (hb : isPinned pins b) : a.version = b.version := by
  simp only [ProviderBinary.key,EmbeddingLike.apply_eq_iff_eq,Prod.mk.injEq] at hkey
  obtain ⟨hhost,hspace,hname⟩ := hkey
  rw [isPinned,hhost,hspace,hname] at ha
  rw [isPinned] at hb
  cases hpin : pins.lookup (canon b.registryHost,b.namespace,b.name) with
  | none => rw [hpin] at ha; cases ha
  | some v =>
    rw [hpin,Option.any_some,decide_eq_true_eq] at ha hb
    exact ha.symm.trans hb

/-- The sort is given an order exactly if no odd name stands between versions. -/
theorem totalOn_pinOrder_iff : TotalOn (pinOrder parse pins) bins ↔ NoOddBetween parse bins pins := by
  have hstages : TotalOn (pinOrder parse pins) bins ↔
      ∀ a ∈ bins, ∀ b ∈ bins.filter fun b => cmp a.key b.key = .eq,
        NoneBetween parse (((bins.filter fun b => cmp a.key b.key = .eq).filter
          fun c => cmp (isPinned pins c) (isPinned pins b) = .eq).map ProviderBinary.version) := by
    unfold pinOrder
    rw [totalOn_then_iff (totalOn_cmp ProviderBinary.key bins)]
    refine forall₂_congr fun a _ => ?_
    rw [totalOn_then_iff (totalOn_cmp (isPinned pins) _).flip]
    refine forall₂_congr fun b _ => ?_
    exact totalOn_flip_iff.trans (totalOn_comap_iff.trans totalOn_mixed_iff)
  rw [hstages]
  constructor
  · intro h a ha b hb c hc hac hbc hpa hpb hpc v w
    have hgroup {x : ProviderBinary} (hx : x ∈ bins) (hkey : x.key = c.key)
        (hpin : ¬isPinned pins x) : x.version ∈ (((bins.filter fun b => cmp c.key b.key = .eq).filter
          fun x => cmp (isPinned pins x) (isPinned pins c) = .eq).map ProviderBinary.version) := by
      rw [Bool.not_eq_true] at hpin hpc
      refine List.mem_map_of_mem (List.mem_filter.mpr ⟨List.mem_filter.mpr ⟨hx,?_⟩,?_⟩)
      · exact decide_eq_true (hkey ▸ cmp_self_eq_eq _)
      · exact decide_eq_true (by rw [hpin,hpc,cmp_self_eq_eq])
    exact h c hc c (List.mem_filter.mpr ⟨hc,decide_eq_true (cmp_self_eq_eq _)⟩) _
      (hgroup ha hac hpa) _ (hgroup hb hbc hpb) _ (hgroup hc rfl hpc) v w
  · intro h a _ b hb x hx y hy z hz v w hpx hpy hpz hxz hzy
    have hclass {x : String} (hx : x ∈ (((bins.filter fun b => cmp a.key b.key = .eq).filter
        fun c => cmp (isPinned pins c) (isPinned pins b) = .eq).map ProviderBinary.version)) :
        ∃ c ∈ bins, c.key = a.key ∧ isPinned pins c = isPinned pins b ∧ c.version = x := by
      obtain ⟨c,hc,rfl⟩ := List.mem_map.mp hx
      obtain ⟨hc,hpin⟩ := List.mem_filter.mp hc
      obtain ⟨hc,hkey⟩ := List.mem_filter.mp hc
      rw [decide_eq_true_eq,cmp_eq_eq_iff] at hpin hkey
      exact ⟨c,hc,hkey.symm,hpin,rfl⟩
    obtain ⟨x,hmemx,hkx,hpinx,rfl⟩ := hclass hx
    obtain ⟨y,hmemy,hky,hpiny,rfl⟩ := hclass hy
    obtain ⟨z,hmemz,hkz,hpinz,rfl⟩ := hclass hz
    cases hpin : isPinned pins b with
    | true =>
      -- the locked ones have one version
      have heq := pinned_version (hkx.trans hkz.symm) (hpinx.trans hpin) (hpinz.trans hpin)
      exact absurd hxz (heq ▸ lt_irrefl _)
    | false =>
      exact h x hmemx y hmemy z hmemz (hkx.trans hkz.symm) (hky.trans hkz.symm) (by simp [hpinx,hpin])
        (by simp [hpiny,hpin]) (by simp [hpinz,hpin]) v w hpx hpy hpz hxz hzy

/-- What is kept of a list that is in order. -/
theorem picks_of_sorted {l : List ProviderBinary}
    (hsorted : l.Pairwise fun a b => (pinOrder parse pins a b).isLE) (hperm : l.Perm bins) :
    Picks parse bins pins (l.destutter fun a b => a.key ≠ b.key) := by
  have hkeys : l.Pairwise fun a b => a.key ≤ b.key := hsorted.imp fun h =>
    isLE_cmp.mp (Ordering.isLE_left_of_isLE_then h)
  -- the one that is kept of a provider is not behind another one of it
  have hfirst {b c : ProviderBinary} (hb : b ∈ bins)
      (hc : c ∈ l.destutter fun a b => a.key ≠ b.key) (hkey : b.key = c.key) :
      c = b ∨ isPinned pins b ≤ isPinned pins c ∧
        (isPinned pins b < isPinned pins c ∨ (versionCmp parse b.version c.version).isLE) := by
    refine (left_first hkeys hsorted (hperm.mem_iff.mpr hb) hc hkey).imp_right fun h => ?_
    rw [pinOrder,← hkey,cmp_self_eq_eq,Ordering.eq_then,Ordering.isLE_then_iff_and,isLE_cmp,
      cmp_eq_lt_iff] at h
    exact h
  constructor
  · exact fun c hc => hperm.mem_iff.mp ((List.destutter_sublist _ l).subset hc)
  · exact (runs_strict hkeys).imp ne_of_lt
  · intro b hb
    obtain ⟨c,hc,hkey,-⟩ := first_of_run (k:=ProviderBinary.key) hsorted (hperm.mem_iff.mpr hb)
    exact ⟨c,hc,hkey⟩
  · intro c hc b hb hkey hpin
    rcases hfirst hb hc hkey with rfl | ⟨hle,-⟩
    · rfl
    · exact pinned_version hkey.symm (hle hpin) hpin
  · intro c hc hunpinned b hb hkey
    have hfound : c ∈ bins := hperm.mem_iff.mp ((List.destutter_sublist _ l).subset hc)
    rcases hfirst hb hc hkey with rfl | ⟨-,hlt | hle⟩
    · rw [versionCmp,mixed_self]
      rfl
    · exact absurd (Bool.lt_iff.mp hlt).2 (hunpinned c hfound rfl)
    · exact hle

theorem picks_of_total (h : TotalOn (pinOrder parse pins) bins) :
    ∃ out, dedupeProvidersUsingPins parse S bins pins = some out ∧ Picks parse bins pins out := by
  obtain ⟨l,hl,hsorted⟩ := S.ordered h
  exact ⟨_,by rw [dedupeProvidersUsingPins,hl,Option.map_some],picks_of_sorted hsorted (S.perm hl)⟩

/-- Two choices of the same binaries agree on the versions. -/
theorem Picks.same_version {bins' out out' : List ProviderBinary} (h : Picks parse bins pins out)
    (h' : Picks parse bins' pins out') (hperm : bins'.Perm bins) {c c' : ProviderBinary}
    (hc : c ∈ out) (hc' : c' ∈ out') (hkey : c'.key = c.key) :
    versionCmp parse c'.version c.version = .eq := by
  by_cases hpin : ∃ b ∈ bins, b.key = c.key ∧ isPinned pins b
  · obtain ⟨b,hb,hbkey,hpin⟩ := hpin
    rw [h.pin c hc b hb hbkey hpin,
      h'.pin c' hc' b (hperm.mem_iff.mpr hb) (hbkey.trans hkey.symm) hpin]
    exact mixed_self
  · have hunpinned : ∀ b ∈ bins, b.key = c.key → ¬isPinned pins b := fun b hb hbkey hpinned =>
      hpin ⟨b,hb,hbkey,hpinned⟩
    have hle := h.highest c hc hunpinned c' (hperm.mem_iff.mp (h'.found c' hc')) hkey
    have hge := h'.highest c' hc' (fun b hb hbkey =>
      hunpinned b (hperm.mem_iff.mp hb) (hbkey.trans hkey)) c (hperm.mem_iff.mpr (h.found c hc))
        hkey.symm
    rw [versionCmp,mixed_swap] at hge
    rw [versionCmp] at hle ⊢
    cases horder : mixed parse c'.version c.version <;> simp_all

/-- The binaries are de-duplicated as they should exactly if no name that is no
version comes between versions of one provider. -/
theorem deduped_iff (parse : String → Option V) (S : SortBy) (bins : List ProviderBinary)
    (pins : Pins) : Deduped parse S bins pins ↔ NoOddBetween parse bins pins := by
  constructor
  · exact fun h => totalOn_pinOrder_iff.mp h.ordered
  · intro h
    have htotal := totalOn_pinOrder_iff.mpr h
    obtain ⟨out,hout,hpicks⟩ := picks_of_total (S:=S) htotal
    refine ⟨htotal,out,hout,hpicks,fun bins' hperm => ?_⟩
    obtain ⟨out',hout',hpicks'⟩ := picks_of_total (S:=S)
      (htotal.mono fun b hb => hperm.mem_iff.mp hb)
    exact ⟨out',hout',fun c hc c' hc' hkey => hpicks.same_version hpicks' hperm hc hc' hkey⟩

/-- Reads releases. -/
def readRelease (v : String) : Option (ℕ ×ₗ ℕ ×ₗ ℕ) := GitRefs.releaseReader.parse v.toList

def randomOf (version : String) : ProviderBinary :=
  ⟨"/dev/null","registry.opentofu.org","hashicorp","random",version⟩

/-- `2x` stands after `10.0.0` and before `9.0.0`. -/
theorem oddName_misorders : ¬Deduped readRelease insertionSort
    [randomOf "9.0.0",randomOf "10.0.0",randomOf "2x"] ∅ := by
  intro h
  have hbetween := totalOn_pinOrder_iff.mp h.ordered
  have hlt := hbetween (randomOf "10.0.0") (by simp) (randomOf "9.0.0") (by simp)
    (randomOf "2x") (by simp) rfl rfl (by decide) (by decide) (by decide)
    (toLex (10,toLex (0,0))) (toLex (9,toLex (0,0))) (by decide) (by decide) (by decide)
    (by decide) (by decide)
  revert hlt
  decide

end Discovery
end TerraformLs
