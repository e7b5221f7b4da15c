import TerraformLs.CachedFetch
import TerraformLs.VersionLists
import TerraformLs.Runs

/-! Runs of the calls that are answered from the disk caches, and the sets of
keys among which no call is answered with what was fetched for another key. -/
namespace TerraformLs

open CachedFetch RegistryVersions

inductive CacheContents
  | tags (tags : GitRefs.RepoTags)
  | versions (versions : List String)
  | dates (dates : Dates)

namespace CacheContents

def tagsFormat : Format GitRefs.RepoTags CacheContents where
  serialise := .tags
  parse
    | .tags t => some t
    | _ => none
  parse_iff a d := by cases d <;> simp

def versionsFormat : Format (List String) CacheContents where
  serialise := .versions
  parse
    | .versions vs => some vs
    | _ => none
  parse_iff a d := by cases d <;> simp

def datesFormat : Format Dates CacheContents where
  serialise := .dates
  parse
    | .dates ds => some ds
    | _ => none
  parse_iff a d := by cases d <;> simp

end CacheContents

/-- The cached files and what has been fetched so far. -/
abbrev DiskCaches := Caches CacheKey Path CacheContents

def gitUrl (source : String) : Option GitUrl :=
  match h : GitRefs.normalizeGitUrl source with
  | some url => some ⟨url,source,h⟩
  | none => none

section calls

variable (C : CharClass) (env : CacheHome)

namespace GitRefs

def listRepoTagsWithRunner (source : String) (o : FetchOutcome String) (s : DiskCaches) :
    Except String RepoTags × DiskCaches :=
  match gitUrl source with
  | none => (.error ("not a git source: " ++ source),s)
  | some url => cachedFetch (CacheKey.file C env) CacheContents.tagsFormat (.repoTags url)
      { o with fetch := o.fetch.map parseLsRemoteTags } s

def listRepoTags (source : String) (cliEnabled : Bool) (o : FetchOutcome String) (s : DiskCaches) :
    Except String RepoTags × DiskCaches :=
  if cliEnabled then listRepoTagsWithRunner C env source o s
  else (.error "git ref resolution disabled (cliEnabled=false)",s)

end GitRefs

namespace RegistryVersions

def fetchRegistryVersions (registry : Registry) (namespace_ name : String)
    (o : FetchOutcome (List String)) (s : DiskCaches) : Except String (List String) × DiskCaches :=
  cachedFetch (CacheKey.file C env) CacheContents.versionsFormat
    (.providerVersions registry namespace_ name) o s

def fetchProviderDates (namespace_ name : String) (o : FetchOutcome Dates) (s : DiskCaches) :
    Except String Dates × DiskCaches :=
  cachedFetch (CacheKey.file C env) CacheContents.datesFormat (.providerDates namespace_ name) o s

def fetchOpentofuDates (namespace_ name : String) (o : FetchOutcome Dates) (s : DiskCaches) :
    Except String Dates × DiskCaches :=
  cachedFetch (CacheKey.file C env) CacheContents.datesFormat (.opentofuDates namespace_ name) o s

def fetchModuleRegistryVersions (registry : Registry) (namespace_ name provider : String)
    (o : FetchOutcome (List String)) (s : DiskCaches) : Except String (List String) × DiskCaches :=
  cachedFetch (CacheKey.file C env) CacheContents.versionsFormat
    (.moduleVersions registry namespace_ name provider) o s

def unwrapOrDefault (result : Except String (List String)) : List String :=
  result.toOption.getD []

def attachIfOk (result : Except String Dates) (versions : List VersionInfo) : List VersionInfo :=
  match result with
  | .ok dates => attachDates versions dates
  | .error _ => versions

/-- The four fetches are joined. None of them fails the call. -/
def fetchVersions (namespace_ name : String) (tf tofu : FetchOutcome (List String))
    (tfDates tofuDates : FetchOutcome Dates) (s : DiskCaches) : List VersionInfo × DiskCaches :=
  let tf := fetchRegistryVersions C env .terraform namespace_ name tf s
  let tofu := fetchRegistryVersions C env .openTofu namespace_ name tofu tf.2
  let tfDates := fetchProviderDates C env namespace_ name tfDates tofu.2
  let tofuDates := fetchOpentofuDates C env namespace_ name tofuDates tfDates.2
  let merged := mergeWithProvenance (unwrapOrDefault tf.1) (unwrapOrDefault tofu.1)
  (attachIfOk tofuDates.1 (attachIfOk tfDates.1 merged),tofuDates.2)

def fetchModuleVersions (namespace_ name provider : String) (tf tofu : FetchOutcome (List String))
    (s : DiskCaches) : List VersionInfo × DiskCaches :=
  let tf := fetchModuleRegistryVersions C env .terraform namespace_ name provider tf s
  let tofu := fetchModuleRegistryVersions C env .openTofu namespace_ name provider tofu tf.2
  (mergeWithProvenance (unwrapOrDefault tf.1) (unwrapOrDefault tofu.1),tofu.2)

end RegistryVersions

inductive CacheCall
  | listRepoTags (source : String) (cliEnabled : Bool) (o : FetchOutcome String)
  | fetchVersions (namespace_ name : String) (tf tofu : FetchOutcome (List String))
    (tfDates tofuDates : FetchOutcome Dates)
  | fetchModuleVersions (namespace_ name provider : String) (tf tofu : FetchOutcome (List String))

inductive CacheAnswer
  | tags (result : Except String GitRefs.RepoTags)
  | versions (versions : List VersionInfo)

namespace CacheCall

def answer (s : DiskCaches) : CacheCall → CacheAnswer
  | .listRepoTags source cliEnabled o => .tags (GitRefs.listRepoTags C env source cliEnabled o s).1
  | .fetchVersions namespace_ name tf tofu tfDates tofuDates =>
    .versions (RegistryVersions.fetchVersions C env namespace_ name tf tofu tfDates tofuDates s).1
  | .fetchModuleVersions namespace_ name provider tf tofu =>
    .versions (RegistryVersions.fetchModuleVersions C env namespace_ name provider tf tofu s).1

def step (s : DiskCaches) : CacheCall → DiskCaches
  | .listRepoTags source cliEnabled o => (GitRefs.listRepoTags C env source cliEnabled o s).2
  | .fetchVersions namespace_ name tf tofu tfDates tofuDates =>
    (RegistryVersions.fetchVersions C env namespace_ name tf tofu tfDates tofuDates s).2
  | .fetchModuleVersions namespace_ name provider tf tofu =>
    (RegistryVersions.fetchModuleVersions C env namespace_ name provider tf tofu s).2

/-- The keys a call asks for. -/
def keys : CacheCall → List CacheKey
  | .listRepoTags source _ _ => (gitUrl source).toList.map .repoTags
  | .fetchVersions namespace_ name _ _ _ _ =>
    [.providerVersions .terraform namespace_ name,.providerVersions .openTofu namespace_ name,
      .providerDates namespace_ name,.opentofuDates namespace_ name]
  | .fetchModuleVersions namespace_ name provider _ _ =>
    [.moduleVersions .terraform namespace_ name provider,
      .moduleVersions .openTofu namespace_ name provider]

/-- The version was listed in something fetched for the key. -/
def Listed (s : DiskCaches) (key : CacheKey) (version : String) : Prop :=
  ∃ versions, version ∈ versions ∧ (key,.versions versions) ∈ s.fetched

/-- All that an answer says was fetched for the keys of the call. -/
def AnswerOwn (s : DiskCaches) : CacheCall → CacheAnswer → Prop
  | .listRepoTags source _ _, .tags result => ∀ tags, result = .ok tags →
    ∃ url, gitUrl source = some url ∧ (.repoTags url,.tags tags) ∈ s.fetched
  | .fetchVersions namespace_ name _ _ _ _, .versions versions => ∀ v ∈ versions,
    v.registries ≠ [] ∧
      (∀ registry ∈ v.registries,
        Listed s (.providerVersions registry namespace_ name) v.version) ∧
      ∀ date, v.publishedAt = some date → ∃ dates : Dates, dates.lookup v.version = some date ∧
        ((.providerDates namespace_ name,.dates dates) ∈ s.fetched ∨
          (.opentofuDates namespace_ name,.dates dates) ∈ s.fetched)
  | .fetchModuleVersions namespace_ name provider _ _, .versions versions => ∀ v ∈ versions,
    v.registries ≠ [] ∧ v.publishedAt = none ∧
      ∀ registry ∈ v.registries,
        Listed s (.moduleVersions registry namespace_ name provider) v.version
  | _, _ => False

end CacheCall

section isolation

variable (K : Set CacheKey)

/-- No key of the set shares its file with another or has it outside the cache directory, and no
run of calls for keys of the set ends with an answer of data fetched for another key. -/
structure Isolated : Prop where
  under : ∀ key ∈ K, Path.Under (key.root env) (key.file C env)
  distinct : ∀ key ∈ K, ∀ key' ∈ K, key ≠ key' → key.file C env ≠ key'.file C env
  answers : ∀ (calls : List CacheCall) (call : CacheCall),
    (∀ c ∈ calls ++ [call], ∀ key ∈ c.keys, key ∈ K) →
    call.AnswerOwn (run (CacheCall.step C env) {} (calls ++ [call]))
      (call.answer C env (run (CacheCall.step C env) {} calls))

/-- No key leads out of the cache directory, and no two of them are alike. -/
structure Separate : Prop where
  inside : ∀ key ∈ K, ¬key.Escapes
  apart : ∀ key ∈ K, ∀ key' ∈ K, key ≠ key' → ¬CacheKey.Alike C key key'

end isolation

variable {C} {env} {K : Set CacheKey} {s : DiskCaches}

/-- The invariant of a run. -/
abbrev OwnFiles (C : CharClass) (env : CacheHome) (K : Set CacheKey) (s : DiskCaches) : Prop :=
  Own (CacheKey.file C env) K s

theorem injOn_of_separate (h : Separate C K) : Set.InjOn (CacheKey.file C env) K := by
  intro key hkey key' hkey' hfile
  by_contra hne
  apply h.apart key hkey key' hkey' hne
  exact (CacheKey.file_eq_iff (h.inside key hkey) (h.inside key' hkey')).mp hfile

theorem own_listRepoTags (hfile : Set.InjOn (CacheKey.file C env) K) (hs : OwnFiles C env K s)
    {source : String} (hkeys : ∀ url, gitUrl source = some url → CacheKey.repoTags url ∈ K)
    (cliEnabled : Bool) (o : FetchOutcome String) :
    OwnFiles C env K (GitRefs.listRepoTags C env source cliEnabled o s).2 := by
  rw [GitRefs.listRepoTags]
  cases cliEnabled with
  | false => exact hs
  | true =>
    simp only [if_true,GitRefs.listRepoTagsWithRunner]
    cases hurl : gitUrl source with
    | none => exact hs
    | some url => exact own_cachedFetch hfile hs (hkeys url hurl)

/-- The two version lists that `fetchVersions` fetches first. -/
theorem own_fetchVersions (hfile : Set.InjOn (CacheKey.file C env) K) (hs : OwnFiles C env K s)
    {namespace_ name : String} (tf tofu : FetchOutcome (List String))
    (htf : CacheKey.providerVersions .terraform namespace_ name ∈ K)
    (htofu : CacheKey.providerVersions .openTofu namespace_ name ∈ K) :
    OwnFiles C env K (fetchRegistryVersions C env .openTofu namespace_ name tofu
      (fetchRegistryVersions C env .terraform namespace_ name tf s).2).2 := by
  have hfirst : OwnFiles C env K (fetchRegistryVersions C env .terraform namespace_ name tf s).2 :=
    own_cachedFetch hfile hs htf
  exact own_cachedFetch hfile hfirst htofu

theorem own_step (hfile : Set.InjOn (CacheKey.file C env) K) (call : CacheCall)
    (hkeys : ∀ key ∈ call.keys, key ∈ K) (hs : OwnFiles C env K s) :
    OwnFiles C env K (call.step C env s) := by
  cases call with
  | listRepoTags source cliEnabled o =>
    apply own_listRepoTags hfile hs
    intro url hurl
    apply hkeys
    simp [CacheCall.keys,hurl]
  | fetchVersions namespace_ name tf tofu tfDates tofuDates =>
    simp only [CacheCall.keys,List.forall_mem_cons] at hkeys
    obtain ⟨htf,htofu,htfDates,htofuDates,-⟩ := hkeys
    have hversions := own_fetchVersions hfile hs tf tofu htf htofu
    have hdates : OwnFiles C env K (fetchProviderDates C env namespace_ name tfDates _).2 :=
      own_cachedFetch hfile hversions htfDates
    exact own_cachedFetch hfile hdates htofuDates
  | fetchModuleVersions namespace_ name provider tf tofu =>
    simp only [CacheCall.keys,List.forall_mem_cons] at hkeys
    obtain ⟨htf,htofu,-⟩ := hkeys
    have hfirst : OwnFiles C env K
        (fetchModuleRegistryVersions C env .terraform namespace_ name provider tf s).2 :=
      own_cachedFetch hfile hs htf
    exact own_cachedFetch hfile hfirst htofu

theorem own_run (hfile : Set.InjOn (CacheKey.file C env) K) (calls : List CacheCall)
    (hkeys : ∀ c ∈ calls, ∀ key ∈ c.keys, key ∈ K) :
    OwnFiles C env K (run (CacheCall.step C env) {} calls) :=
  (throughout_of_step (fun call hcall _ => own_step hfile call (hkeys call hcall)) own_empty).final

theorem listed_mono {s s' : DiskCaches} (h : s.fetched ⊆ s'.fetched) {key : CacheKey}
    {version : String} (hlisted : CacheCall.Listed s key version) :
    CacheCall.Listed s' key version := by
  obtain ⟨versions,hmem,hfetched⟩ := hlisted
  exact ⟨versions,hmem,h hfetched⟩

/-- The versions that a fetch contributes were listed for its key. -/
theorem listed_of_fetch (hs : OwnFiles C env K s) {key : CacheKey} (hkey : key ∈ K)
    {o : FetchOutcome (List String)} {version : String} (h : version ∈ unwrapOrDefault
      (cachedFetch (CacheKey.file C env) CacheContents.versionsFormat key o s).1) :
    CacheCall.Listed (cachedFetch (CacheKey.file C env) CacheContents.versionsFormat key o s).2
      key version := by
  cases hresult : (cachedFetch (CacheKey.file C env) CacheContents.versionsFormat key o s).1 with
  | error e =>
    rw [hresult] at h
    cases h
  | ok versions =>
    rw [hresult] at h
    exact ⟨versions,h,answer_own hs hkey hresult⟩

theorem attachIfOk_mem {result : Except String Dates} {versions : List VersionInfo}
    {info : VersionInfo} (h : info ∈ attachIfOk result versions) : ∃ v ∈ versions,
      info.version = v.version ∧ info.registries = v.registries ∧
      (info.publishedAt = v.publishedAt ∨
        ∃ dates, result = .ok dates ∧ info.publishedAt = dates.lookup v.version) := by
  cases result with
  | error e => exact ⟨info,h,rfl,rfl,.inl rfl⟩
  | ok dates =>
    obtain ⟨v,hv,hversion,hregistries,hdate | hdate⟩ := attachDates_mem h
    · exact ⟨v,hv,hversion,hregistries,.inl hdate⟩
    · exact ⟨v,hv,hversion,hregistries,.inr ⟨dates,rfl,hdate⟩⟩

theorem answer_listRepoTags (hs : OwnFiles C env K s) {source : String} {cliEnabled : Bool}
    {o : FetchOutcome String} (hkeys : ∀ url, gitUrl source = some url → CacheKey.repoTags url ∈ K) :
    (CacheCall.listRepoTags source cliEnabled o).AnswerOwn
      (GitRefs.listRepoTags C env source cliEnabled o s).2
      (.tags (GitRefs.listRepoTags C env source cliEnabled o s).1) := by
  intro tags htags
  rw [GitRefs.listRepoTags] at htags ⊢
  cases cliEnabled with
  | false => cases htags
  | true =>
    simp only [if_true,GitRefs.listRepoTagsWithRunner] at htags ⊢
    cases hurl : gitUrl source with
    | none =>
      rw [hurl] at htags
      cases htags
    | some url =>
      rw [hurl] at htags
      exact ⟨url,rfl,answer_own hs (hkeys url hurl) htags⟩

theorem answer_fetchVersions (hfile : Set.InjOn (CacheKey.file C env) K)
    (hs : OwnFiles C env K s) {namespace_ name : String} {tf tofu : FetchOutcome (List String)}
    {tfDates tofuDates : FetchOutcome Dates}
    (hkeys : ∀ key ∈ (CacheCall.fetchVersions namespace_ name tf tofu tfDates tofuDates).keys,
      key ∈ K) : (CacheCall.fetchVersions namespace_ name tf tofu tfDates tofuDates).AnswerOwn
        (fetchVersions C env namespace_ name tf tofu tfDates tofuDates s).2
        (.versions (fetchVersions C env namespace_ name tf tofu tfDates tofuDates s).1) := by
  simp only [CacheCall.keys,List.forall_mem_cons] at hkeys
  obtain ⟨htf,htofu,htfDates,htofuDates,-⟩ := hkeys
  intro info hinfo
  simp only [fetchVersions] at hinfo ⊢
  generalize hr1 : fetchRegistryVersions C env .terraform namespace_ name tf s = r1 at hinfo ⊢
  generalize hr2 : fetchRegistryVersions C env .openTofu namespace_ name tofu r1.2 = r2 at hinfo ⊢
  generalize hr3 : fetchProviderDates C env namespace_ name tfDates r2.2 = r3 at hinfo ⊢
  generalize hr4 : fetchOpentofuDates C env namespace_ name tofuDates r3.2 = r4 at hinfo ⊢
  have hs1 : OwnFiles C env K r1.2 := by
    rw [← hr1]
    exact own_cachedFetch hfile hs htf
  have hs2 : OwnFiles C env K r2.2 := by
    rw [← hr2]
    exact own_cachedFetch hfile hs1 htofu
  have hs3 : OwnFiles C env K r3.2 := by
    rw [← hr3]
    exact own_cachedFetch hfile hs2 htfDates
  have h12 : r1.2.fetched ⊆ r2.2.fetched := by
    rw [← hr2]
    exact fetched_subset
  have h23 : r2.2.fetched ⊆ r3.2.fetched := by
    rw [← hr3]
    exact fetched_subset
  have h34 : r3.2.fetched ⊆ r4.2.fetched := by
    rw [← hr4]
    exact fetched_subset
  have h24 := List.Subset.trans h23 h34
  have h14 := List.Subset.trans h12 h24
  obtain ⟨v,hv,hversion,hregistries,hdate⟩ := attachIfOk_mem hinfo
  obtain ⟨w,hw,hversion',hregistries',hdate'⟩ := attachIfOk_mem hv
  obtain ⟨hne,hnone,hlisted⟩ := mergeWithProvenance_from w hw
  rw [hversion,hversion',hregistries,hregistries']
  refine ⟨hne,fun registry hregistry => ?_,fun date hsome => ?_⟩
  · have hmem := hlisted registry hregistry
    cases registry with
    | terraform =>
      apply listed_mono h14
      rw [← hr1] at hmem ⊢
      exact listed_of_fetch hs htf hmem
    | openTofu =>
      apply listed_mono h24
      rw [← hr2] at hmem ⊢
      exact listed_of_fetch hs1 htofu hmem
  · rcases hdate with hdate | ⟨dates,hdates,hdate⟩
    · rcases hdate' with hdate' | ⟨dates,hdates,hdate'⟩
      · rw [hdate,hdate',hnone] at hsome
        cases hsome
      · refine ⟨dates,?_,.inl (h34 ?_)⟩
        · rw [← hdate',← hdate]
          exact hsome
        · rw [← hr3] at hdates ⊢
          exact answer_own hs2 htfDates hdates
    · refine ⟨dates,?_,.inr ?_⟩
      · rw [← hversion',← hdate]
        exact hsome
      · rw [← hr4] at hdates ⊢
        exact answer_own hs3 htofuDates hdates

theorem answer_fetchModuleVersions (hfile : Set.InjOn (CacheKey.file C env) K)
    (hs : OwnFiles C env K s) {namespace_ name provider : String}
    {tf tofu : FetchOutcome (List String)}
    (hkeys : ∀ key ∈ (CacheCall.fetchModuleVersions namespace_ name provider tf tofu).keys,
      key ∈ K) : (CacheCall.fetchModuleVersions namespace_ name provider tf tofu).AnswerOwn
        (fetchModuleVersions C env namespace_ name provider tf tofu s).2
        (.versions (fetchModuleVersions C env namespace_ name provider tf tofu s).1) := by
  simp only [CacheCall.keys,List.forall_mem_cons] at hkeys
  obtain ⟨htf,htofu,-⟩ := hkeys
  intro info hinfo
  simp only [fetchModuleVersions] at hinfo ⊢
  generalize hr1 : fetchModuleRegistryVersions C env .terraform namespace_ name provider tf s = r1
    at hinfo ⊢
  generalize hr2 : fetchModuleRegistryVersions C env .openTofu namespace_ name provider tofu r1.2 =
    r2 at hinfo ⊢
  have hs1 : OwnFiles C env K r1.2 := by
    rw [← hr1]
    exact own_cachedFetch hfile hs htf
  have h12 : r1.2.fetched ⊆ r2.2.fetched := by
    rw [← hr2]
    exact fetched_subset
  obtain ⟨hne,hnone,hlisted⟩ := mergeWithProvenance_from info hinfo
  refine ⟨hne,hnone,fun registry hregistry => ?_⟩
  have hmem := hlisted registry hregistry
  cases registry with
  | terraform =>
    apply listed_mono h12
    rw [← hr1] at hmem ⊢
    exact listed_of_fetch hs htf hmem
  | openTofu =>
    rw [← hr2] at hmem ⊢
    exact listed_of_fetch hs1 htofu hmem

theorem answer_step (hfile : Set.InjOn (CacheKey.file C env) K) (hs : OwnFiles C env K s)
    (call : CacheCall) (hkeys : ∀ key ∈ call.keys, key ∈ K) :
    call.AnswerOwn (call.step C env s) (call.answer C env s) := by
  cases call with
  | listRepoTags source cliEnabled o =>
    apply answer_listRepoTags hs
    intro url hurl
    apply hkeys
    simp [CacheCall.keys,hurl]
  | fetchVersions namespace_ name tf tofu tfDates tofuDates =>
    exact answer_fetchVersions hfile hs hkeys
  | fetchModuleVersions namespace_ name provider tf tofu =>
    exact answer_fetchModuleVersions hfile hs hkeys

variable (C) (env) (K)

/-- Which sets of keys are isolated. -/
theorem isolated_iff : Isolated C env K ↔ Separate C K := by
  constructor
  · intro h
    have hinside : ∀ key ∈ K, ¬key.Escapes := fun key hkey =>
      (CacheKey.under_iff key).mp (h.under key hkey)
    refine ⟨hinside,fun key hkey key' hkey' hne halike => ?_⟩
    apply h.distinct key hkey key' hkey' hne
    exact (CacheKey.file_eq_iff (hinside key hkey) (hinside key' hkey')).mpr halike
  · intro h
    have hfile : Set.InjOn (CacheKey.file C env) K := injOn_of_separate h
    refine ⟨fun key hkey => (CacheKey.under_iff key).mpr (h.inside key hkey),?_,?_⟩
    · exact fun key hkey key' hkey' hne heq => hne (hfile hkey hkey' heq)
    · intro calls call hkeys
      have hcalls : ∀ c ∈ calls, ∀ key ∈ c.keys, key ∈ K := fun c hc =>
        hkeys c (List.mem_append_left _ hc)
      have hlast : ∀ key ∈ call.keys, key ∈ K := hkeys call (by simp)
      rw [run_concat]
      exact answer_step hfile (own_run hfile calls hcalls) call hlast

/-- Of two repositories that share a file, the tags of one answer for the other. -/
theorem shared_file_leaks {source source' : String} {url url' : GitUrl}
    (hurl : gitUrl source = some url) (hurl' : gitUrl source' = some url') (hne : url ≠ url')
    (hfile : CacheKey.file C env (.repoTags url') = CacheKey.file C env (.repoTags url))
    (o o' : FetchOutcome String) (stdout : String) (hfetch : o.fetch = .ok stdout)
    (hwritten : o.written = true) (hfresh : o'.fresh = true) :
    ¬(CacheCall.listRepoTags source' true o').AnswerOwn
      (run (CacheCall.step C env) {} [.listRepoTags source true o,.listRepoTags source' true o'])
      ((CacheCall.listRepoTags source' true o').answer C env
        (run (CacheCall.step C env) {} [.listRepoTags source true o])) := by
  have hempty : ∀ allowed, readCache (CacheKey.file C env) CacheContents.tagsFormat {} allowed
      (.repoTags url) = none := by
    intro allowed
    cases allowed <;> rfl
  have hfirst : (CacheCall.listRepoTags source true o).step C env {} =
      writeCache (CacheKey.file C env)
        ⟨fun _ => none,[(.repoTags url,.tags (GitRefs.parseLsRemoteTags stdout))]⟩
        (.repoTags url) (.tags (GitRefs.parseLsRemoteTags stdout)) := by
    simp only [CacheCall.step,GitRefs.listRepoTags,if_true,GitRefs.listRepoTagsWithRunner,hurl,
      cachedFetch,hempty,hfetch,Except.map,hwritten]
    rfl
  have hread : readCache (CacheKey.file C env) CacheContents.tagsFormat
      ((CacheCall.listRepoTags source true o).step C env {}) o'.fresh (.repoTags url') =
        some (GitRefs.parseLsRemoteTags stdout) := by
    rw [hfirst,hfresh,readCache_writeCache hfile]
    rfl
  have hsecond : GitRefs.listRepoTags C env source' true o'
      ((CacheCall.listRepoTags source true o).step C env {}) =
        (.ok (GitRefs.parseLsRemoteTags stdout),
          (CacheCall.listRepoTags source true o).step C env {}) := by
    simp only [GitRefs.listRepoTags,if_true,GitRefs.listRepoTagsWithRunner,hurl',cachedFetch,hread]
  intro hown
  have hresult := hown (GitRefs.parseLsRemoteTags stdout) (congrArg Prod.fst hsecond)
  obtain ⟨found,hfound,hmem⟩ := hresult
  have hstate : run (CacheCall.step C env) {} [.listRepoTags source true o,
      .listRepoTags source' true o'] = (CacheCall.listRepoTags source true o).step C env {} := by
    show (GitRefs.listRepoTags C env source' true o' _).2 = _
    rw [hsecond]
  rw [hurl'] at hfound
  cases hfound
  rw [hstate,hfirst] at hmem
  have hkey := congrArg Prod.fst (List.mem_singleton.mp hmem)
  cases hkey
  exact hne rfl

def asciiClass : CharClass := ⟨Char.isAlphanum,fun _ _ => rfl⟩

def homeCaches : CacheHome := ⟨none,some ["home"]⟩

theorem gitUrl_of_normalized {source : String} {url : Rope}
    (h : GitRefs.normalizeGitUrl source = some url) : gitUrl source = some ⟨url,source,h⟩ := by
  rw [gitUrl]
  split
  · rename_i url' h'
    cases h.symm.trans h'
    rfl
  · rename_i h'
    cases h.symm.trans h'

/-- The tags of `a/b` answer for `a_b`. -/
theorem slash_leaks : ¬(CacheCall.listRepoTags "github.com/a_b" true ⟨true,.ok "",true,true⟩).AnswerOwn
    (run (CacheCall.step asciiClass homeCaches) {}
      [.listRepoTags "github.com/a/b" true ⟨true,.ok "",true,true⟩,
        .listRepoTags "github.com/a_b" true ⟨true,.ok "",true,true⟩])
    ((CacheCall.listRepoTags "github.com/a_b" true ⟨true,.ok "",true,true⟩).answer asciiClass
      homeCaches (run (CacheCall.step asciiClass homeCaches) {}
        [.listRepoTags "github.com/a/b" true ⟨true,.ok "",true,true⟩])) := by
  have hslash : GitRefs.normalizeGitUrl "github.com/a/b" = some "https://github.com/a/b".toList := rfl
  have hline : GitRefs.normalizeGitUrl "github.com/a_b" = some "https://github.com/a_b".toList := rfl
  have hsanitise : sanitise asciiClass (String.ofList "https://github.com/a_b".toList) =
      sanitise asciiClass (String.ofList "https://github.com/a/b".toList) := by
    rw [sanitise,sanitise,String.toList_ofList,String.toList_ofList]
    apply congrArg String.ofList
    decide
  refine shared_file_leaks asciiClass homeCaches (gitUrl_of_normalized hslash)
    (gitUrl_of_normalized hline) (fun heq => ?_) ?_ _ _ "" rfl rfl rfl
  · have hurl : "https://github.com/a/b".toList = "https://github.com/a_b".toList :=
      congrArg GitUrl.url heq
    revert hurl
    decide
  · show GitRefs.cachePath asciiClass homeCaches _ = GitRefs.cachePath asciiClass homeCaches _
    rw [GitRefs.cachePath,GitRefs.cachePath,hsanitise]

end calls
end TerraformLs
