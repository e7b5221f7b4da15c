import TerraformLs.CacheLookups
import TerraformLs.Comparators
import TerraformLs.NewerVersions
import TerraformLs.VersionLists

/-! From a tag of a repository to its commit and back, over what `git ls-remote`
prints. -/
namespace TerraformLs
namespace GitRefs

open CacheLookups Comparators

/-- The characters git allows in the name of a reference. -/
def isRefChar (c : Char) : Bool :=
  ' ' < c && !(['\x7f','~','^',':','?','*','[','\\'].contains c)

/-- A line of the output: a hash and a tag, perhaps peeled to its commit. -/
structure RefLine where
  sha : String
  name : String
  peeled : Bool
  sha_ne : sha.toList ≠ []
  sha_hex : sha.toList.all isAsciiHexdigit
  name_ne : name.toList ≠ []
  name_ref : name.toList.all isRefChar

namespace RefLine

def refname (l : RefLine) : Rope :=
  "refs/tags/".toList ++ (l.name.toList ++ if l.peeled then "^\x7b\x7d".toList else [])

def text (l : RefLine) : Rope := l.sha.toList ++ '\t' :: l.refname

end RefLine

/-- What `git ls-remote --tags` prints. -/
def lsRemote (lines : List RefLine) : String :=
  String.ofList (lines.flatMap fun l => l.text ++ ['\n'])

def ListedOnce (lines : List RefLine) : Prop := (lines.map fun l => (l.name,l.peeled)).Nodup

/-- The commit of a tag: the peeled hash if there is one. -/
def Commit (lines : List RefLine) (name sha : String) : Prop :=
  ∃ l ∈ lines, l.name = name ∧ l.sha = sha ∧
    (l.peeled = false → ∀ l' ∈ lines, l'.name = name → l'.peeled = false)

def tagToSha (tags : RepoTags) (tag : String) : Option String :=
  (tags.find? (·.name = tag)).map (·.commitSha)

def toAsciiLowercase (s : Rope) : Rope := s.map Char.toLower

/-- A full hash matches itself, an abbreviated one what it begins. -/
def shaMatches (full pinned : Rope) : Bool :=
  if !looksLikeCommitSha (toAsciiLowercase pinned) then false
  else if (toAsciiLowercase pinned).lenBytes ≥ 40 then toAsciiLowercase full = toAsciiLowercase pinned
  else (toAsciiLowercase pinned).isPrefixOf (toAsciiLowercase full)

variable {V : Type} [LinearOrder V] (S : VersionReader V)

def versionOf (name : String) : Option V := parseVersionCore S name.toList

def tagOrder (a b : TagEntry) : Ordering := mixed (versionOf S) a.name b.name

/-- The tag that points at a commit, the last one in order; the sort may panic. -/
def shaToTag (sort : SortBy) (tags : RepoTags) (pinned : Rope) : Option (Option String) :=
  if !looksLikeCommitSha pinned then some none
  else
    let found := tags.filter fun e => shaMatches e.commitSha.toList pinned
    if found = [] then some none
    else (sort.sort (tagOrder S) found).map fun l => l.getLast?.map (·.name)

/-- The tag is one of the commit that a hash is pinned to. -/
def Matches (lines : List RefLine) (pinned : Rope) (tag : String) : Prop :=
  ∃ sha, Commit lines tag sha ∧ shaMatches sha.toList pinned

/-- The lookups over what was printed. -/
structure LookupsRight (sort : SortBy) (lines : List RefLine) (pinned : Rope) : Prop where
  once : ((parseLsRemoteTags (lsRemote lines)).map TagEntry.name).Nodup
  parsed : ∀ name sha, ⟨name,sha⟩ ∈ parseLsRemoteTags (lsRemote lines) ↔ Commit lines name sha
  found : ∀ tag sha,
    tagToSha (parseLsRemoteTags (lsRemote lines)) tag = some sha ↔ Commit lines tag sha
  named : ∃ answer, shaToTag S sort (parseLsRemoteTags (lsRemote lines)) pinned = some answer ∧
    (answer.isSome ↔ ∃ tag, Matches lines pinned tag) ∧
    (∀ tag, answer = some tag → Matches lines pinned tag) ∧
    ∀ tag v, Matches lines pinned tag → versionOf S tag = some v →
      ∃ highest w, answer = some highest ∧ versionOf S highest = some w ∧ v ≤ w

/-- No tag has white space in its name. -/
def NamesPlain (lines : List RefLine) : Prop :=
  ∀ l ∈ lines, ∀ c ∈ l.name.toList, isWhitespace c = false

/-- Among the tags of the commit, none that is no version stands in text order between
two versions that come the other way round, and if there is a version, one stands
after all others. -/
structure OddApart (lines : List RefLine) (pinned : Rope) : Prop where
  between : ∀ a b c, Matches lines pinned a → Matches lines pinned b → Matches lines pinned c →
    ∀ v w, versionOf S a = some v → versionOf S b = some w → versionOf S c = none →
      a < c → c < b → v < w
  last : ∀ a, Matches lines pinned a → (versionOf S a).isSome →
    ∃ b, Matches lines pinned b ∧ (versionOf S b).isSome ∧
      ∀ c, Matches lines pinned c → versionOf S c = none → c < b

/-! ### Reading the output -/

theorem hex_not_whitespace {c : Char} (h : isAsciiHexdigit c) : isWhitespace c = false := by
  have hle {a b : Char} : (a ≤ b) ↔ a.toNat ≤ b.toNat := by
    rw [Char.le_def,UInt32.le_iff_toNat_le]
    rfl
  simp only [isAsciiHexdigit,Char.isDigit,Bool.or_eq_true,Bool.and_eq_true,decide_eq_true_eq] at h
  simp only [hle] at h
  have hdigit : c.toNat ≤ 102 ∧ 48 ≤ c.toNat := by
    rcases h with (⟨h₁,h₂⟩ | ⟨h₁,h₂⟩) | ⟨h₁,h₂⟩
    · have h₁ : 48 ≤ c.toNat := UInt32.le_iff_toNat_le.mp h₁
      have h₂ : c.toNat ≤ 57 := UInt32.le_iff_toNat_le.mp h₂
      omega
    · have h₁ : 97 ≤ c.toNat := h₁
      have h₂ : c.toNat ≤ 102 := h₂
      omega
    · have h₁ : 65 ≤ c.toNat := h₁
      have h₂ : c.toNat ≤ 70 := h₂
      omega
  simp only [isWhitespace,Bool.or_eq_false_iff,Bool.and_eq_false_iff,decide_eq_false_iff_not]
  omega

theorem sha_plain (l : RefLine) : ∀ c ∈ l.sha.toList, isWhitespace c = false := fun c hc =>
  hex_not_whitespace (List.all_eq_true.mp l.sha_hex c hc)

theorem refname_plain {l : RefLine} (h : ∀ c ∈ l.name.toList, isWhitespace c = false) :
    ∀ c ∈ l.refname, isWhitespace c = false := by
  have hstart : "refs/tags/".toList.all fun c => !isWhitespace c := by decide
  have hmark : "^\x7b\x7d".toList.all fun c => !isWhitespace c := by decide
  intro c hc
  rcases List.mem_append.mp hc with hc | hc
  · simpa using List.all_eq_true.mp hstart c hc
  · rcases List.mem_append.mp hc with hc | hc
    · exact h c hc
    · split_ifs at hc
      · simpa using List.all_eq_true.mp hmark c hc
      · cases hc

theorem splitWhitespace_text {l : RefLine} (h : ∀ c ∈ l.name.toList, isWhitespace c = false) :
    splitWhitespace l.text = [l.sha.toList,l.refname] := by
  have hne : l.refname ≠ [] := List.append_ne_nil_of_left_ne_nil (by decide) _
  rw [splitWhitespace,RefLine.text,
    List.splitOnP_append_cons_of_forall_mem (sha_plain l) '\t' (by decide),
    List.splitOnP_eq_singleton (refname_plain h),
    List.filter_cons_of_pos (p:=fun x => decide (x ≠ [])) (decide_eq_true l.sha_ne),
    List.filter_cons_of_pos (p:=fun x => decide (x ≠ [])) (decide_eq_true hne),List.filter_nil]

theorem stripPrefix_append (a b : Rope) : stripPrefix a (a ++ b) = some b := by
  rw [stripPrefix,if_pos (List.isPrefixOf_iff_prefix.mpr (List.prefix_append a b)),List.drop_left]

theorem stripSuffix_append (a b : Rope) : stripSuffix b (a ++ b) = some a := by
  rw [stripSuffix,if_pos (List.isSuffixOf_iff_suffix.mpr (List.suffix_append a b)),
    List.length_append,Nat.add_sub_cancel,List.take_left]

theorem stripSuffix_direct (l : RefLine) : stripSuffix "^\x7b\x7d".toList l.name.toList = none := by
  have hmark : '^' ∈ "^\x7b\x7d".toList := by decide
  have hcaret : isRefChar '^' = false := by decide
  rw [stripSuffix]
  refine if_neg fun hsuffix => ?_
  have href := List.all_eq_true.mp l.name_ref '^' ((List.isSuffixOf_iff_suffix.mp hsuffix).subset hmark)
  rw [hcaret] at href
  cases href

/-- What a line adds to the table. -/
def record (map : KeyedMap String (String × Bool)) (l : RefLine) : KeyedMap String (String × Bool) :=
  if (map.lookup l.name).any Prod.snd then map else map.insert l.name (l.sha,l.peeled)

theorem insertTag_text {map : KeyedMap String (String × Bool)} {l : RefLine}
    (h : ∀ c ∈ l.name.toList, isWhitespace c = false) : insertTag map l.text = record map l := by
  have hstart : stripPrefix "refs/tags/".toList l.refname =
      some (l.name.toList ++ if l.peeled then "^\x7b\x7d".toList else []) := stripPrefix_append _ _
  have hsuffix : stripSuffix "^\x7b\x7d".toList
      (l.name.toList ++ if l.peeled then "^\x7b\x7d".toList else []) =
        if l.peeled then some l.name.toList else none := by
    split_ifs
    · exact stripSuffix_append _ _
    · rw [List.append_nil]
      exact stripSuffix_direct l
  have hname : (if l.peeled then some l.name.toList else none).getD
      (l.name.toList ++ if l.peeled then "^\x7b\x7d".toList else []) = l.name.toList := by
    split_ifs
    · rfl
    · exact List.append_nil _
  have hpeeled : (if l.peeled then some l.name.toList else none).isSome = l.peeled := by
    cases l.peeled <;> rfl
  rw [insertTag,splitWhitespace_text h]
  simp only [hstart]
  rw [hsuffix,hname,hpeeled,String.ofList_toList,String.ofList_toList,record]
  rcases map.lookup l.name with _ | ⟨sha,_ | _⟩ <;> rfl

theorem splitOn_lsRemote {lines : List RefLine} (h : NamesPlain lines) :
    (lsRemote lines).toList.splitOn '\n' = lines.map RefLine.text ++ [[]] := by
  rw [lsRemote,String.toList_ofList]
  induction lines with
  | nil => rfl
  | cons l lines ih =>
    have hplain : ∀ c ∈ l.text, c ≠ '\n' := by
      rintro c hc rfl
      rcases List.mem_append.mp hc with hc | hc
      · exact absurd (sha_plain l _ hc) (by decide)
      · rcases List.mem_cons.mp hc with hc | hc
        · cases hc
        · exact absurd (refname_plain (h l List.mem_cons_self) _ hc) (by decide)
    have hline : ∀ c ∈ l.text, (c == '\n') = false := fun c hc => beq_eq_false_iff_ne.mpr (hplain c hc)
    rw [List.flatMap_cons,List.append_assoc,List.singleton_append,List.splitOn_eq_splitOnP,
      List.splitOnP_append_cons_of_forall_mem hline '\n' (by decide),← List.splitOn_eq_splitOnP,
      ih fun l' hl' => h l' (List.mem_cons_of_mem l hl')]
    rfl

/-- The table after the lines. -/
theorem foldl_insertTag {lines : List RefLine} (h : NamesPlain lines) :
    ((lsRemote lines).toList.splitOn '\n').foldl insertTag ∅ = lines.foldl record ∅ := by
  rw [splitOn_lsRemote h,List.foldl_append,List.foldl_map]
  change insertTag (lines.foldl (fun map l => insertTag map l.text) ∅) [] = _
  have hblank : ∀ map, insertTag map [] = map := fun map => rfl
  rw [hblank]
  exact List.foldl_ext _ _ _ fun map l hl => insertTag_text (h l hl)

/-- A table of what stands in the lines, where a peeled hash is kept. -/
def Tabulates (map : KeyedMap String (String × Bool)) (lines : List RefLine) : Prop :=
  ∀ name sha peeled, map.lookup name = some (sha,peeled) ↔
    (∃ l ∈ lines, l.name = name ∧ l.sha = sha ∧ l.peeled = peeled) ∧
      (peeled = false → ∀ l ∈ lines, l.name = name → l.peeled = false)

theorem Tabulates.record {map : KeyedMap String (String × Bool)} {lines : List RefLine} {l : RefLine}
    (h : Tabulates map lines) (hfresh : ∀ l' ∈ lines, l'.name = l.name → l'.peeled ≠ l.peeled) :
    Tabulates (record map l) (lines ++ [l]) := by
  have hmem {P : RefLine → Prop} : (∃ l' ∈ lines ++ [l], P l') ↔ (∃ l' ∈ lines, P l') ∨ P l := by
    simp [or_and_right,exists_or]
  have hall {P : RefLine → Prop} : (∀ l' ∈ lines ++ [l], P l') ↔ (∀ l' ∈ lines, P l') ∧ P l := by
    simp [or_imp,forall_and]
  intro name sha peeled
  rw [hmem,hall,GitRefs.record]
  split_ifs with hany
  · -- the tag has its peeled hash already
    obtain ⟨⟨sha',peeled'⟩,hpeeled,rfl : peeled' = true⟩ := (Option.any_eq_true _ _).mp hany
    obtain ⟨⟨l',hl',hname',hsha',hpeeled'⟩,-⟩ := (h l.name sha' true).mp hpeeled
    have hdirect : l.peeled = false := by
      have hne := hfresh l' hl' hname'
      rw [hpeeled'] at hne
      cases hp : l.peeled
      · rfl
      · exact absurd hp.symm hne
    rw [h name sha peeled]
    constructor
    · rintro ⟨hex,hno⟩
      exact ⟨.inl hex,fun hfalse => ⟨hno hfalse,fun _ => hdirect⟩⟩
    · rintro ⟨hex | ⟨rfl,rfl,rfl⟩,hno⟩
      · exact ⟨hex,fun hfalse => (hno hfalse).1⟩
      · have := (hno hdirect).1 l' hl' hname'
        rw [hpeeled'] at this
        cases this
  · have hnot (sha' : String) : map.lookup l.name ≠ some (sha',true) := fun heq => by
      rw [heq] at hany
      exact hany rfl
    rw [KeyedMap.lookup_insert_of]
    -- no peeled hash of the tag has come before
    have hdirect : ∀ l' ∈ lines, l'.name = l.name → l'.peeled = false := by
      intro l' hl' hname'
      by_contra hp
      rw [Bool.not_eq_false] at hp
      exact hnot l'.sha ((h l.name l'.sha true).mpr
        ⟨⟨l',hl',hname',rfl,hp⟩,fun hfalse => by cases hfalse⟩)
    have halone : ∀ l' ∈ lines, l'.name = l.name → l.peeled = true := by
      intro l' hl' hname'
      have hne := hfresh l' hl' hname'
      rw [hdirect l' hl' hname'] at hne
      cases hp : l.peeled
      · exact absurd hp.symm hne
      · rfl
    split_ifs with hname
    · subst hname
      constructor
      · intro heq
        cases heq
        refine ⟨.inr ⟨rfl,rfl,rfl⟩,fun hfalse => ⟨hdirect,fun _ => hfalse⟩⟩
      · rintro ⟨⟨l',hl',hname',rfl,rfl⟩ | ⟨-,rfl,rfl⟩,hno⟩
        · have hfalse := hdirect l' hl' hname'
          have := (hno hfalse).2 rfl
          rw [halone l' hl' hname'] at this
          cases this
        · rfl
    · rw [h name sha peeled]
      constructor
      · rintro ⟨hex,hno⟩
        exact ⟨.inl hex,fun hfalse => ⟨hno hfalse,fun heq => absurd heq.symm hname⟩⟩
      · rintro ⟨hex | ⟨rfl,-,-⟩,hno⟩
        · exact ⟨hex,fun hfalse => (hno hfalse).1⟩
        · exact absurd rfl hname

theorem tabulates_foldl {lines : List RefLine} (h : ListedOnce lines) :
    Tabulates (lines.foldl record ∅) lines := by
  induction lines using List.reverseRecOn with
  | nil =>
    intro name sha peeled
    simp
  | append_singleton lines l ih =>
    rw [List.foldl_append]
    rw [ListedOnce,List.map_append,List.nodup_append] at h
    refine (ih h.1).record fun l' hl' hname hpeeled => ?_
    exact h.2.2 _ (List.mem_map_of_mem hl') _ (List.mem_singleton.mpr rfl) (Prod.ext hname hpeeled)

theorem nodup_parse (stdout : String) : ((parseLsRemoteTags stdout).map TagEntry.name).Nodup := by
  rw [parseLsRemoteTags]
  refine ((List.mergeSort_perm _ _).map TagEntry.name).nodup_iff.mpr ?_
  rw [List.map_map]
  exact (AList.nodupKeys _)

theorem mem_parse {stdout name sha : String} : (⟨name,sha⟩ : TagEntry) ∈ parseLsRemoteTags stdout ↔
    ∃ peeled, ((stdout.toList.splitOn '\n').foldl insertTag ∅).lookup name = some (sha,peeled) := by
  rw [parseLsRemoteTags,List.mem_mergeSort,List.mem_map]
  constructor
  · rintro ⟨⟨name',sha',peeled⟩,hentry,heq⟩
    cases heq
    exact ⟨peeled,KeyedMap.mem_entries.mp hentry⟩
  · rintro ⟨peeled,hlookup⟩
    exact ⟨⟨name,sha,peeled⟩,KeyedMap.mem_entries.mpr hlookup,rfl⟩

theorem mem_parse_iff {lines : List RefLine} (hplain : NamesPlain lines) (honce : ListedOnce lines)
    {name sha : String} :
    (⟨name,sha⟩ : TagEntry) ∈ parseLsRemoteTags (lsRemote lines) ↔ Commit lines name sha := by
  rw [mem_parse,foldl_insertTag hplain]
  constructor
  · rintro ⟨peeled,hlookup⟩
    obtain ⟨⟨l,hl,hname,hsha,rfl⟩,hno⟩ := (tabulates_foldl honce name sha peeled).mp hlookup
    exact ⟨l,hl,hname,hsha,hno⟩
  · rintro ⟨l,hl,hname,hsha,hno⟩
    exact ⟨l.peeled,(tabulates_foldl honce name sha _).mpr ⟨⟨l,hl,hname,hsha,rfl⟩,hno⟩⟩

theorem mem_splitOnP {p : Char → Bool} {t piece : Rope} (h : piece ∈ t.splitOnP p) :
    ∀ c ∈ piece, p c = false := by
  induction t generalizing piece with
  | nil =>
    rw [List.splitOnP_eq_singleton (by simp),List.mem_singleton] at h
    simp [h]
  | cons c t ih =>
    rw [List.splitOnP_cons_eq_if_modifyHead] at h
    split_ifs at h with hc
    · rcases List.mem_cons.mp h with rfl | h
      · simp
      · exact ih h
    · obtain ⟨first,rest,hsplit⟩ := List.exists_cons_of_ne_nil (List.splitOnP_ne_nil p t)
      rw [hsplit,List.modifyHead_cons] at h
      rcases List.mem_cons.mp h with rfl | h
      · intro d hd
        rcases List.mem_cons.mp hd with rfl | hd
        · simpa using hc
        · exact ih (hsplit ▸ List.mem_cons_self) d hd
      · exact ih (hsplit ▸ List.mem_cons_of_mem first h)

theorem stripSuffix_subset {suffix s t : Rope} (h : stripSuffix suffix s = some t) : t ⊆ s := by
  rw [stripSuffix] at h
  split_ifs at h
  cases h
  exact List.take_subset _ _

theorem stripPrefix_subset {start s t : Rope} (h : stripPrefix start s = some t) : t ⊆ s := by
  rw [stripPrefix] at h
  split_ifs at h
  cases h
  exact List.drop_subset _ _

def PlainKeys (map : KeyedMap String (String × Bool)) : Prop :=
  ∀ name ∈ map.keys, ∀ c ∈ name.toList, isWhitespace c = false

/-- No name that is read has white space in it, whatever is read. -/
theorem PlainKeys.insertTag {map : KeyedMap String (String × Bool)} {line : Rope}
    (h : PlainKeys map) : PlainKeys (insertTag map line) := by
  rw [GitRefs.insertTag]
  split
  · rename_i sha refname rest hpieces
    split
    · rename_i rest hrest
      have hrefname : ∀ c ∈ refname, isWhitespace c = false := by
        have hmem : refname ∈ splitWhitespace line := by simp [hpieces]
        exact mem_splitOnP (List.mem_filter.mp hmem).1
      have hname : ∀ c ∈ (stripSuffix "^\x7b\x7d".toList rest).getD rest, isWhitespace c = false := by
        intro c hc
        refine hrefname c (stripPrefix_subset hrest ?_)
        cases hsuffix : stripSuffix "^\x7b\x7d".toList rest with
        | none => rwa [hsuffix] at hc
        | some name =>
          rw [hsuffix] at hc
          exact stripSuffix_subset hsuffix hc
      simp only
      split
      · exact h
      · intro name hkey
        rw [← AList.mem_keys,AList.mem_insert] at hkey
        rcases hkey with rfl | hkey
        · rwa [String.toList_ofList]
        · exact h name (AList.mem_keys.mp hkey)
    · exact h
  · exact h

theorem parse_plain {stdout : String} {e : TagEntry} (h : e ∈ parseLsRemoteTags stdout) :
    ∀ c ∈ e.name.toList, isWhitespace c = false := by
  have hkeys : PlainKeys ((stdout.toList.splitOn '\n').foldl insertTag ∅) := by
    generalize stdout.toList.splitOn '\n' = pieces
    induction pieces using List.reverseRecOn with
    | nil => intro name hname; cases hname
    | append_singleton pieces piece ih =>
      rw [List.foldl_append]
      exact ih.insertTag
  obtain ⟨peeled,hlookup⟩ := mem_parse.mp h
  exact hkeys e.name (AList.mem_keys.mp (AList.lookup_isSome.mp (by rw [hlookup]; rfl)))

/-! ### Looking up -/

theorem tagToSha_iff {tags : RepoTags} (hnodup : (tags.map TagEntry.name).Nodup) {tag sha : String} :
    tagToSha tags tag = some sha ↔ (⟨tag,sha⟩ : TagEntry) ∈ tags := by
  rw [tagToSha,Option.map_eq_some_iff]
  constructor
  · rintro ⟨e,he,rfl⟩
    have hname := List.find?_some he
    rw [decide_eq_true_eq] at hname
    exact hname ▸ List.mem_of_find?_eq_some he
  · intro hmem
    cases hfind : tags.find? (·.name = tag) with
    | none => exact absurd (decide_eq_true rfl) (List.find?_eq_none.mp hfind _ hmem)
    | some e =>
      have hname := List.find?_some hfind
      rw [decide_eq_true_eq] at hname
      have heq := List.inj_on_of_nodup_map hnodup (List.mem_of_find?_eq_some hfind) hmem hname
      exact ⟨e,rfl,heq ▸ rfl⟩

/-- Lower case changes no more than ASCII letters. -/
theorem toLower_cases {P : Char → Char → Prop} (hself : ∀ c, P c c)
    (hascii : ∀ n < 128, P (Char.ofNat n) (Char.ofNat n).toLower) (c : Char) : P c c.toLower := by
  by_cases hc : c.toNat < 128
  · have hascii := hascii c.toNat hc
    rwa [Char.ofNat_toNat] at hascii
  · have hlower : c.toLower = c := by
      refine dif_neg fun hupper => ?_
      have hle : c.toNat ≤ 90 := UInt32.le_iff_toNat_le.mp hupper.2
      omega
    rw [hlower]
    exact hself c

theorem toLower_hex (c : Char) : isAsciiHexdigit c.toLower = isAsciiHexdigit c :=
  toLower_cases (P:=fun c d => isAsciiHexdigit d = isAsciiHexdigit c) (fun _ => rfl)
    (by decide +kernel) c

theorem toLower_size (c : Char) : c.toLower.utf8Size = c.utf8Size :=
  toLower_cases (P:=fun c d => d.utf8Size = c.utf8Size) (fun _ => rfl) (by decide +kernel) c

theorem looksLikeCommitSha_lowercase (r : Rope) :
    looksLikeCommitSha (toAsciiLowercase r) = looksLikeCommitSha r := by
  have hlen : (toAsciiLowercase r).lenBytes = r.lenBytes := by
    have hsize : Char.utf8Size ∘ Char.toLower = Char.utf8Size := funext toLower_size
    rw [Rope.lenBytes,Rope.lenBytes,toAsciiLowercase,List.map_map,hsize]
  have hall : (toAsciiLowercase r).all isAsciiHexdigit = r.all isAsciiHexdigit := by
    rw [toAsciiLowercase,List.all_map]
    exact congrArg r.all (funext toLower_hex)
  rw [looksLikeCommitSha,looksLikeCommitSha,hlen,hall]

theorem looksLike_of_matches {full pinned : Rope} (h : shaMatches full pinned) :
    looksLikeCommitSha pinned := by
  rw [shaMatches] at h
  split_ifs at h with hlooks
  all_goals
    rw [looksLikeCommitSha_lowercase] at hlooks
    simpa using hlooks

variable {S} {sort : SortBy} {tags : RepoTags} {pinned : Rope}

/-- The entries that a pinned hash matches. -/
def matching (tags : RepoTags) (pinned : Rope) : RepoTags :=
  tags.filter fun e => shaMatches e.commitSha.toList pinned

theorem shaToTag_eq : shaToTag S sort tags pinned =
    if matching tags pinned = [] then some none
    else (sort.sort (tagOrder S) (matching tags pinned)).map fun l => l.getLast?.map (·.name) := by
  rw [shaToTag]
  by_cases hlooks : looksLikeCommitSha pinned
  · rw [if_neg (by simp [hlooks])]
    rfl
  · have hnone : matching tags pinned = [] := by
      rw [matching,List.filter_eq_nil_iff]
      exact fun e _ hmatches => hlooks (looksLike_of_matches hmatches)
    rw [if_pos (by simp [hlooks]),if_pos hnone]

theorem totalOn_tagOrder_iff {l : RepoTags} :
    TotalOn (tagOrder S) l ↔ NoneBetween (versionOf S) (l.map TagEntry.name) := by
  have hcomap : TotalOn (fun a b : TagEntry => mixed (versionOf S) a.name b.name) l ↔
      TotalOn (mixed (versionOf S)) (l.map TagEntry.name) := totalOn_comap_iff
  exact hcomap.trans totalOn_mixed_iff

/-- What is known of an answer when the sort is given an order. -/
theorem shaToTag_of_total {s : SortBy} (h : TotalOn (tagOrder S) (matching tags pinned)) :
    ∃ answer, shaToTag S s tags pinned = some answer ∧
      (answer = none ↔ matching tags pinned = []) ∧
      ∀ tag, answer = some tag → ∃ e ∈ matching tags pinned, e.name = tag ∧
        ∀ e' ∈ matching tags pinned, (mixed (versionOf S) e'.name tag).isLE := by
  rw [shaToTag_eq]
  split_ifs with hnone
  · exact ⟨none,rfl,by simp [hnone],by simp⟩
  · obtain ⟨l,hl,hsorted⟩ := s.ordered h
    have hperm := s.perm hl
    rw [hl,Option.map_some]
    refine ⟨_,rfl,?_,?_⟩
    · rw [Option.map_eq_none_iff,List.getLast?_eq_none_iff]
      refine ⟨fun hnil => absurd ?_ hnone,fun h => absurd h hnone⟩
      rw [hnil] at hperm
      exact hperm.nil_eq.symm
    · intro tag htag
      obtain ⟨e,he,rfl⟩ := Option.map_eq_some_iff.mp htag
      refine ⟨e,hperm.mem_iff.mp (List.mem_of_getLast? he),rfl,fun e' he' => ?_⟩
      rcases last_of_pairwise hsorted he (hperm.mem_iff.mpr he') with rfl | hle
      · rw [mixed_self]
        rfl
      · exact hle

section exact

variable {lines : List RefLine}

theorem mem_matching (hparsed : ∀ name sha, (⟨name,sha⟩ : TagEntry) ∈ tags ↔ Commit lines name sha)
    {tag : String} : tag ∈ (matching tags pinned).map TagEntry.name ↔ Matches lines pinned tag := by
  rw [List.mem_map]
  constructor
  · rintro ⟨e,he,rfl⟩
    obtain ⟨hmem,hsha⟩ := List.mem_filter.mp he
    exact ⟨e.commitSha,(hparsed e.name e.commitSha).mp hmem,hsha⟩
  · rintro ⟨sha,hcommit,hsha⟩
    exact ⟨⟨tag,sha⟩,List.mem_filter.mpr ⟨(hparsed tag sha).mpr hcommit,hsha⟩,rfl⟩

theorem noneBetween_matching
    (hparsed : ∀ name sha, (⟨name,sha⟩ : TagEntry) ∈ tags ↔ Commit lines name sha) :
    NoneBetween (versionOf S) ((matching tags pinned).map TagEntry.name) ↔
      ∀ a b c, Matches lines pinned a → Matches lines pinned b → Matches lines pinned c →
        ∀ v w, versionOf S a = some v → versionOf S b = some w → versionOf S c = none →
          a < c → c < b → v < w := by
  simp only [NoneBetween,mem_matching hparsed]
  exact ⟨fun h a b c ha hb hc => h a ha b hb c hc,fun h a ha b hb c hc => h a b c ha hb hc⟩

/-- With the odd names apart the last tag in order is a highest version. -/
theorem OddApart.lookups (h : OddApart S lines pinned) (hplain : NamesPlain lines)
    (honce : ListedOnce lines) : LookupsRight S sort lines pinned := by
  have hparsed : ∀ name sha, _ ↔ Commit lines name sha := fun name sha => mem_parse_iff hplain honce
  refine ⟨nodup_parse _,hparsed,fun tag sha => (tagToSha_iff (nodup_parse _)).trans
    (hparsed tag sha),?_⟩
  obtain ⟨answer,hanswer,hnone,hlast⟩ := shaToTag_of_total (s:=sort)
    (totalOn_tagOrder_iff.mpr ((noneBetween_matching hparsed).mpr h.between))
  have hsome : ∀ tag, answer = some tag → Matches lines pinned tag := by
    intro tag htag
    obtain ⟨e,he,rfl,-⟩ := hlast tag htag
    exact (mem_matching hparsed).mp (List.mem_map_of_mem he)
  have hexists : ∀ tag, Matches lines pinned tag → ∃ last, answer = some last := by
    intro tag htag
    obtain ⟨e,he,-⟩ := List.mem_map.mp ((mem_matching hparsed).mpr htag)
    refine Option.ne_none_iff_exists'.mp fun heq => ?_
    rw [hnone.mp heq] at he
    cases he
  refine ⟨answer,hanswer,⟨?_,?_⟩,hsome,?_⟩
  · intro hisSome
    obtain ⟨tag,htag⟩ := Option.isSome_iff_exists.mp hisSome
    exact ⟨tag,hsome tag htag⟩
  · rintro ⟨tag,htag⟩
    obtain ⟨last,heq⟩ := hexists tag htag
    rw [heq]
    rfl
  · intro tag v htag hv
    obtain ⟨highest,hhighest⟩ := hexists tag htag
    obtain ⟨e,he,rfl,hle⟩ := hlast highest hhighest
    have hbelow : ∀ t, Matches lines pinned t → (mixed (versionOf S) t e.name).isLE := by
      intro t ht
      obtain ⟨e',he',rfl⟩ := List.mem_map.mp ((mem_matching hparsed).mpr ht)
      exact hle e' he'
    cases hw : versionOf S e.name with
    | none =>
      -- the version that stands after all odd names would stand after the last
      obtain ⟨b,hb,hbsome,hafter⟩ := h.last tag htag (by rw [hv]; rfl)
      have hlt := hafter e.name (hsome e.name hhighest) hw
      have hbe := hbelow b hb
      rw [mixed_right hw,isLE_cmp] at hbe
      exact absurd hlt hbe.not_gt
    | some w =>
      have hte := hbelow tag htag
      rw [mixed_read hv hw,isLE_cmp] at hte
      exact ⟨e.name,w,hhighest,hw,hte⟩

/-- Whatever the sort does, the right answer takes odd names that stand apart. -/
theorem oddApart_of_lookups (h : ∀ sort, LookupsRight S sort lines pinned) :
    OddApart S lines pinned := by
  have hparsed := (h insertionSort).parsed
  obtain ⟨answer,hanswer,hisSome,hsome,hhighest⟩ := (h strictSort).named
  have htotal : TotalOn (tagOrder S) (matching (parseLsRemoteTags (lsRemote lines)) pinned) := by
    by_contra hnot
    have hne : matching (parseLsRemoteTags (lsRemote lines)) pinned ≠ [] := by
      intro hnil
      rw [hnil] at hnot
      exact hnot ⟨by simp,by simp⟩
    rw [shaToTag_eq,if_neg hne,strictSort_none hnot] at hanswer
    cases hanswer
  refine ⟨(noneBetween_matching hparsed).mp (totalOn_tagOrder_iff.mp htotal),fun a ha hasome => ?_⟩
  obtain ⟨v,hv⟩ := Option.isSome_iff_exists.mp hasome
  obtain ⟨highest,w,hanswer',hw,-⟩ := hhighest a v ha hv
  obtain ⟨answer',heq,-,hlast⟩ := shaToTag_of_total (s:=strictSort) htotal
  rw [hanswer] at heq
  cases heq
  obtain ⟨e,he,rfl,hle⟩ := hlast highest hanswer'
  refine ⟨e.name,hsome e.name hanswer',by rw [hw]; rfl,fun c hc hodd => ?_⟩
  obtain ⟨e',he',rfl⟩ := List.mem_map.mp ((mem_matching hparsed).mpr hc)
  have hce := hle e' he'
  rw [mixed_left hodd,isLE_cmp] at hce
  exact hce.lt_of_ne (ne_of_read hw hodd).symm

variable {lines' : List RefLine}

theorem commit_perm (hperm : lines'.Perm lines) {name sha : String} :
    Commit lines' name sha ↔ Commit lines name sha := by
  simp only [Commit,hperm.mem_iff]

theorem matches_perm (hperm : lines'.Perm lines) {tag : String} :
    Matches lines' pinned tag ↔ Matches lines pinned tag := by
  simp only [Matches,commit_perm hperm]

theorem ListedOnce.perm (h : ListedOnce lines) (hperm : lines'.Perm lines) : ListedOnce lines' :=
  (hperm.map _).nodup_iff.mpr h

/-- The table does not depend on the order of the lines. -/
theorem parse_perm (hplain : NamesPlain lines) (honce : ListedOnce lines)
    (hperm : lines'.Perm lines) :
    parseLsRemoteTags (lsRemote lines') = parseLsRemoteTags (lsRemote lines) := by
  have hplain' : NamesPlain lines' := fun l hl => hplain l (hperm.mem_iff.mp hl)
  have hmem (e : TagEntry) : e ∈ parseLsRemoteTags (lsRemote lines') ↔
      e ∈ parseLsRemoteTags (lsRemote lines) := by
    rw [mem_parse_iff hplain' (honce.perm hperm),mem_parse_iff hplain honce,commit_perm hperm]
  have hsorted (stdout : String) :
      (parseLsRemoteTags stdout).Pairwise fun a b => a.name ≤ b.name := by
    rw [parseLsRemoteTags]
    refine (List.pairwise_mergeSort (fun a b c hab hbc => ?_) (fun a b => ?_) _).imp
      fun h => of_decide_eq_true h
    · rw [decide_eq_true_eq] at hab hbc ⊢
      exact hab.trans hbc
    · rw [Bool.or_eq_true,decide_eq_true_eq,decide_eq_true_eq]
      exact le_total a.name b.name
  have hnodup (stdout : String) : (parseLsRemoteTags stdout).Nodup := (nodup_parse stdout).of_map _
  refine ((List.perm_ext_iff_of_nodup (hnodup _) (hnodup _)).mpr hmem).eq_of_pairwise
    (fun a b ha hb hab hba => ?_) (hsorted _) (hsorted _)
  exact List.inj_on_of_nodup_map (nodup_parse _) ((hmem a).mp ha) hb (le_antisymm hab hba)

theorem OddApart.perm (h : OddApart S lines pinned) (hperm : lines'.Perm lines) :
    OddApart S lines' pinned where
  between a b c ha hb hc := h.between a b c ((matches_perm hperm).mp ha) ((matches_perm hperm).mp hb)
    ((matches_perm hperm).mp hc)
  last a ha hasome := by
    obtain ⟨b,hb,hbsome,hafter⟩ := h.last a ((matches_perm hperm).mp ha) hasome
    exact ⟨b,(matches_perm hperm).mpr hb,hbsome,fun c hc => hafter c ((matches_perm hperm).mp hc)⟩

/-- Names with white space are cut off, so a right table shows that there are none. -/
theorem namesPlain_of_parsed
    (h : ∀ name sha, (⟨name,sha⟩ : TagEntry) ∈ parseLsRemoteTags (lsRemote lines) ↔
      Commit lines name sha) : NamesPlain lines := by
  intro l hl
  have hcommit : ∃ sha, Commit lines l.name sha := by
    by_cases hpeeled : ∃ l' ∈ lines, l'.name = l.name ∧ l'.peeled = true
    · obtain ⟨l',hl',hname,hp⟩ := hpeeled
      exact ⟨l'.sha,l',hl',hname,rfl,fun hfalse => by rw [hp] at hfalse; cases hfalse⟩
    · refine ⟨l.sha,l,hl,rfl,rfl,fun _ l' hl' hname => ?_⟩
      rw [← Bool.not_eq_true]
      exact fun hp => hpeeled ⟨l',hl',hname,hp⟩
  obtain ⟨sha,hcommit⟩ := hcommit
  exact parse_plain ((h l.name sha).mpr hcommit)

/-- The lookups are right, and the same in every order of the lines, exactly if no name
has white space and the odd names of the commit stand apart. -/
theorem lookups_right_iff (S : VersionReader V) (lines : List RefLine) (pinned : Rope)
    (honce : ListedOnce lines) :
    (∀ (sort : SortBy) (lines' : List RefLine), lines'.Perm lines →
      parseLsRemoteTags (lsRemote lines') = parseLsRemoteTags (lsRemote lines) ∧
        LookupsRight S sort lines' pinned) ↔
      NamesPlain lines ∧ OddApart S lines pinned := by
  constructor
  · intro h
    exact ⟨namesPlain_of_parsed (h insertionSort lines (.refl _)).2.parsed,
      oddApart_of_lookups fun sort => (h sort lines (.refl _)).2⟩
  · rintro ⟨hplain,hodd⟩ sort lines' hperm
    exact ⟨parse_perm hplain honce hperm,(hodd.perm hperm).lookups
      (fun l hl => hplain l (hperm.mem_iff.mp hl)) (honce.perm hperm)⟩

end exact

def sampleSha : String := "9f8e7d6c5b4a3f2e1d0c9b8a7f6e5d4c3b2a1f0e"

/-- A tag of the sample commit. -/
def lightweight (name : String) (hne : name.toList ≠ []) (href : name.toList.all isRefChar) :
    RefLine :=
  ⟨sampleSha,name,false,by decide,by decide,hne,href⟩

def release : RefLine := lightweight "v1.0.0" (by decide) (by decide)

def zeta : RefLine := lightweight "zeta" (by decide) (by decide)

theorem release_alone_right : ListedOnce [release] ∧ ∀ (sort : SortBy) (lines' : List RefLine),
    lines'.Perm [release] →
      parseLsRemoteTags (lsRemote lines') = parseLsRemoteTags (lsRemote [release]) ∧
        LookupsRight releaseReader sort lines' "9f8e7d6".toList := by
  have honce : ListedOnce [release] := List.nodup_singleton _
  have hname {tag : String} (h : Matches [release] "9f8e7d6".toList tag) : tag = "v1.0.0" := by
    obtain ⟨sha,⟨l,hl,rfl,-⟩,-⟩ := h
    rw [List.mem_singleton.mp hl]
    rfl
  have hversion : (versionOf releaseReader "v1.0.0").isSome := by decide +kernel
  refine ⟨honce,(lookups_right_iff releaseReader [release] "9f8e7d6".toList honce).mpr
    ⟨?_,fun a b c ha hb hc v w hv hw hodd => ?_,fun a ha _ => ?_⟩⟩
  · intro l hl c hc
    rw [List.mem_singleton.mp hl] at hc
    have hplain : release.name.toList.all fun c => !isWhitespace c := by decide
    simpa using List.all_eq_true.mp hplain c hc
  · rw [hname hc] at hodd
    rw [hodd] at hversion
    cases hversion
  · refine ⟨a,ha,hname ha ▸ hversion,fun c hc hodd => ?_⟩
    rw [hname hc] at hodd
    rw [hodd] at hversion
    cases hversion

/-- Of the tags `v1.0.0` and `zeta` of one commit the odd name is taken. -/
theorem zeta_over_release : ¬∀ (sort : SortBy) (lines' : List RefLine),
    lines'.Perm [release,zeta] →
      parseLsRemoteTags (lsRemote lines') = parseLsRemoteTags (lsRemote [release,zeta]) ∧
        LookupsRight releaseReader sort lines' "9f8e7d6".toList := by
  intro h
  have hmatches {l : RefLine} (hl : l ∈ [release,zeta]) (hsha : l.sha = sampleSha) :
      Matches [release,zeta] "9f8e7d6".toList l.name := by
    refine ⟨sampleSha,⟨l,hl,rfl,hsha,fun _ l' hl' _ => ?_⟩,by decide +kernel⟩
    rcases List.mem_pair.mp hl' with rfl | rfl <;> rfl
  have hodd := oddApart_of_lookups fun sort => (h sort _ (.refl _)).2
  have hversion : (versionOf releaseReader "v1.0.0").isSome := by decide +kernel
  have hzeta : versionOf releaseReader "zeta" = none := by decide +kernel
  obtain ⟨b,⟨sha,⟨l,hl,rfl,-⟩,-⟩,hbsome,hafter⟩ := hodd.last "v1.0.0" (hmatches (l:=release) (by simp) rfl) hversion
  have hlt := hafter "zeta" (hmatches (l:=zeta) (by simp) rfl) hzeta
  rcases List.mem_pair.mp hl with rfl | rfl
  · exact absurd hlt (by decide)
  · exact absurd hlt (lt_irrefl _)

end GitRefs
end TerraformLs
