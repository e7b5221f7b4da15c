import TerraformLs.GitUrls
import TerraformLs.JsonConfig

/-! The settings of a run from the command line: a file of settings in JSON and the flags
that are laid over it. -/
namespace TerraformLs

namespace Json

/-- The value under a key of an object. -/
def get (v : Json) (key : String) : Option Json :=
  v.asObject.bind fun fields => (fields.find? fun f => f.1 = key).map Prod.snd

def insertField (key : String) (value : Json) : List (String × Json) → List (String × Json)
  | [] => [(key,value)]
  | f::fields => if f.1 = key then (key,value) :: fields else f :: insertField key value fields

def insert (v : Json) (key : String) (value : Json) : Json :=
  match v with
  | .object fields => .object (insertField key value fields)
  | v => v

def asBool : Json → Option Bool
  | .bool b => some b
  | _ => none

def asStr : Json → Option String
  | .string s => some s
  | _ => none

def asArray : Json → Option (List Json)
  | .array items => some items
  | _ => none

/-- A number without sign, fraction and exponent that fits into 64 bits. -/
def asU64 : Json → Option ℕ
  | .number digits =>
    if digits.toList ≠ [] ∧ digits.toList.all Char.isDigit then
      let n := digits.toList.foldl (fun n c => 10 * n + (c.toNat - '0'.toNat)) 0
      if n < 2 ^ 64 then some n else none
    else none
  | _ => none

mutual

/-- Every object holds each of its keys once. -/
def Keyed : Json → Prop
  | .array items => KeyedItems items
  | .object fields => (fields.map Prod.fst).Nodup ∧ KeyedFields fields
  | _ => True

def KeyedItems : List Json → Prop
  | [] => True
  | item::items => item.Keyed ∧ KeyedItems items

def KeyedFields : List (String × Json) → Prop
  | [] => True
  | (_,value)::fields => value.Keyed ∧ KeyedFields fields

end

theorem keyed_of_mem {fields : List (String × Json)} {f : String × Json} (h : KeyedFields fields)
    (hf : f ∈ fields) : f.2.Keyed := by
  induction fields with
  | nil => cases hf
  | cons first fields ih =>
    rw [KeyedFields] at h
    rcases List.mem_cons.mp hf with rfl | hf
    · exact h.1
    · exact ih h.2 hf

theorem asObject_eq_some {v : Json} {fields : List (String × Json)} :
    v.asObject = some fields ↔ v = .object fields := by
  cases v <;> simp [asObject]

theorem Keyed.get {v w : Json} {key : String} (h : v.Keyed) (hget : v.get key = some w) : w.Keyed := by
  obtain ⟨fields,hfields,hfind⟩ := Option.bind_eq_some_iff.mp hget
  obtain ⟨f,hf,rfl⟩ := Option.map_eq_some_iff.mp hfind
  rw [asObject_eq_some.mp hfields,Keyed] at h
  exact keyed_of_mem h.2 (List.mem_of_find?_eq_some hf)

theorem Keyed.nodup {v : Json} {fields : List (String × Json)} (h : v.Keyed)
    (hfields : v.asObject = some fields) : (fields.map Prod.fst).Nodup := by
  rw [asObject_eq_some.mp hfields,Keyed] at h
  exact h.1

/-- The first field of a key. -/
def lookup (key : String) (fields : List (String × Json)) : Option Json :=
  (fields.find? fun f => f.1 = key).map Prod.snd

theorem lookup_cons (key : String) (f : String × Json) (fields : List (String × Json)) :
    lookup key (f :: fields) = if f.1 = key then some f.2 else lookup key fields := by
  rw [lookup,lookup]
  by_cases h : f.1 = key <;> simp [h]

theorem lookup_eq_none {key : String} {fields : List (String × Json)} (h : key ∉ fields.map Prod.fst) :
    lookup key fields = none := by
  rw [lookup,Option.map_eq_none_iff,List.find?_eq_none]
  intro f hf heq
  exact h ((of_decide_eq_true heq) ▸ List.mem_map_of_mem hf)

theorem lookup_insertField (key : String) (value : Json) (fields : List (String × Json)) (k : String) :
    lookup k (insertField key value fields) = if k = key then some value else lookup k fields := by
  induction fields with
  | nil =>
    rw [insertField,lookup_cons]
    simp only [eq_comm]
  | cons f fields ih =>
    rw [insertField]
    split_ifs with hf hk hk
    · rw [lookup_cons,if_pos hk.symm]
    · rw [lookup_cons,lookup_cons,if_neg (Ne.symm hk),hf,if_neg (Ne.symm hk)]
    · rw [lookup_cons,ih,if_pos hk,hk,if_neg hf]
    · rw [lookup_cons,lookup_cons,ih,if_neg hk]

theorem mem_keys_insertField {key k : String} {value : Json} {fields : List (String × Json)} :
    k ∈ (insertField key value fields).map Prod.fst ↔ k = key ∨ k ∈ fields.map Prod.fst := by
  induction fields with
  | nil => simp [insertField]
  | cons f fields ih =>
    rw [insertField]
    split_ifs with hf
    · simp [hf]
    · rw [List.map_cons,List.mem_cons,ih,List.map_cons,List.mem_cons]
      tauto

theorem nodup_insertField {fields : List (String × Json)} (h : (fields.map Prod.fst).Nodup)
    (key : String) (value : Json) : ((insertField key value fields).map Prod.fst).Nodup := by
  induction fields with
  | nil => simp [insertField]
  | cons f fields ih =>
    rw [List.map_cons,List.nodup_cons] at h
    rw [insertField]
    split_ifs with hf
    · rw [List.map_cons,List.nodup_cons]
      exact ⟨hf ▸ h.1,h.2⟩
    · rw [List.map_cons,List.nodup_cons,mem_keys_insertField]
      exact ⟨fun hor => hor.elim hf h.1,ih h.2⟩

theorem get_insert {v : Json} (h : v.isObject) (key : String) (value : Json) (k : String) :
    (v.insert key value).get k = if k = key then some value else v.get k := by
  obtain ⟨fields,hfields⟩ := Option.isSome_iff_exists.mp h
  obtain rfl := asObject_eq_some.mp hfields
  exact lookup_insertField key value fields k

theorem isObject_insert {v : Json} (h : v.isObject) (key : String) (value : Json) :
    (v.insert key value).isObject := by
  obtain ⟨fields,hfields⟩ := Option.isSome_iff_exists.mp h
  obtain rfl := asObject_eq_some.mp hfields
  rfl

end Json

namespace RuleFlags

open GitRefs

inductive FormatStyle
  | minimal | opinionated
  deriving DecidableEq

def FormatStyle.fromStrLossy (s : String) : Option FormatStyle :=
  if s = "minimal" ∨ s = "Minimal" then some .minimal
  else if s = "opinionated" ∨ s = "Opinionated" then some .opinionated
  else none

inductive RuleSeverity
  | off | hint | info | warning | error
  deriving DecidableEq

def RuleSeverity.fromStrLossy (s : String) : Option RuleSeverity :=
  let word := String.ofList ((trim s.toList).map Char.toLower)
  if word ∈ ["off","none","ignore","disabled","false"] then some .off
  else if word = "hint" then some .hint
  else if word ∈ ["info","information"] then some .info
  else if word ∈ ["warn","warning"] then some .warning
  else if word = "error" then some .error
  else none

/-- Times are in milliseconds, and a hash map is what it holds for each key. -/
structure Config where
  cliTimeout : ℕ := 60000
  watchDebounce : ℕ := 150
  cliEnabled : Bool := true
  cliBinary : String := "tofu"
  staleVersionDays : ℕ := 180
  styleRules : Bool := false
  formatStyle : FormatStyle := .minimal
  ruleOverrides : String → Option RuleSeverity := fun _ => none
  planKnownCollections : String × String → Option (List String) := fun _ => none

def severityOf (v : Json) : Option RuleSeverity := v.asStr.bind RuleSeverity.fromStrLossy

/-- Entries with an unknown severity are left out. -/
def overridesOf (rules : List (String × Json)) : String → Option RuleSeverity :=
  rules.foldl (fun map r =>
    match severityOf r.2 with
    | some sev => Function.update map r.1 (some sev)
    | none => map) fun _ => none

def splitKey (key : String) : Option (String × String) :=
  match key.toList.dropWhile (· ≠ '.') with
  | [] => none
  | _::attr => some (String.ofList (key.toList.takeWhile (· ≠ '.')),String.ofList attr)

def collectionsOf (entries : List (String × Json)) : String × String → Option (List String) :=
  entries.foldl (fun map e =>
    match splitKey e.1, e.2.asArray with
    | some key, some items => Function.update map key (some (items.filterMap Json.asStr))
    | _, _ => map) fun _ => none

def wrapperKey : String := "terraform-ls-rs"

/-- The settings may be wrapped. -/
def settingsOf (value : Json) : Json := (value.get wrapperKey).getD value

def updateFromJson (config : Config) (value : Json) : Config :=
  let obj := settingsOf value
  { cliEnabled := ((obj.get "cliEnabled").bind Json.asBool).getD config.cliEnabled
    cliBinary := ((obj.get "cliBinary").bind Json.asStr).getD config.cliBinary
    cliTimeout := (((obj.get "cliTimeoutSecs").bind Json.asU64).map (· * 1000)).getD config.cliTimeout
    watchDebounce := ((obj.get "watchDebounceMs").bind Json.asU64).getD config.watchDebounce
    staleVersionDays := (((obj.get "staleVersionDays").bind Json.asU64).map
      (min · (2 ^ 32 - 1))).getD config.staleVersionDays
    styleRules := ((obj.get "styleRules").bind Json.asBool).getD config.styleRules
    formatStyle := (((obj.get "formatStyle").bind Json.asStr).bind
      FormatStyle.fromStrLossy).getD config.formatStyle
    ruleOverrides := (((obj.get "rules").bind Json.asObject).map overridesOf).getD config.ruleOverrides
    planKnownCollections := (((obj.get "planKnownComputedCollections").bind Json.asObject).map
      collectionsOf).getD config.planKnownCollections }

section flags

def ruleLevels : List String := ["off","hint","info","warning","error"]

structure RuleOverrideArg where
  code : String
  level : String
  known : level ∈ ruleLevels

/-- `CODE=LEVEL` with a level that is known. -/
def RuleOverrideArg.fromStr (s : String) : Option RuleOverrideArg :=
  match s.toList.dropWhile (· ≠ '=') with
  | [] => none
  | _::level =>
    let code := String.ofList (s.toList.takeWhile (· ≠ '='))
    if code = "" then none
    else if known : String.ofList level ∈ ruleLevels then some ⟨code,String.ofList level,known⟩
    else none

/-- The flags are put into the file's object, whatever its shape. -/
def buildConfigJson (fileConfig : Option Json) (rules : List RuleOverrideArg) (styleRules : Bool) : Json :=
  let merged := fileConfig.getD (.object [])
  let rulesObj := ((fileConfig.bind (Json.get · "rules")).filter Json.isObject).getD (.object [])
  let merged := merged.insert "rules"
    (rules.foldl (fun obj r => obj.insert r.code (.string r.level)) rulesObj)
  if styleRules then merged.insert "styleRules" (.bool true)
  else if ((merged.get "styleRules").bind Json.asBool).isNone then
    merged.insert "styleRules" (.bool false)
  else merged

/-- The last flag for a rule. -/
def lastFlag (rules : List RuleOverrideArg) (code : String) : Option RuleSeverity :=
  (rules.reverse.find? fun r => r.code = code).bind fun r => RuleSeverity.fromStrLossy r.level

/-- A configuration with the flags laid over it. -/
def overlaid (config : Config) (rules : List RuleOverrideArg) (styleRules : Bool) : Config :=
  { config with
    ruleOverrides := fun code => (lastFlag rules code).or (config.ruleOverrides code)
    styleRules := styleRules || config.styleRules }

end flags
/-- The settings already say what the flags do. -/
structure AlreadySaid (settings : Json) (rules : List RuleOverrideArg) (styleRules : Bool) : Prop where
  rules : ∀ code sev, lastFlag rules code = some sev →
    (((settings.get "rules").bind (Json.get · code)).bind severityOf) = some sev
  style : styleRules = true → (settings.get "styleRules").bind Json.asBool = some true

section overrides

/-- With distinct keys an entry is what its field says. -/
theorem overridesOf_eq {fields : List (String × Json)} (h : (fields.map Prod.fst).Nodup) (code : String) :
    overridesOf fields code = (Json.lookup code fields).bind severityOf := by
  have hfold : ∀ map : String → Option RuleSeverity, (∀ k ∈ fields.map Prod.fst, map k = none) →
      fields.foldl (fun map r =>
        match severityOf r.2 with
        | some sev => Function.update map r.1 (some sev)
        | none => map) map code = ((Json.lookup code fields).bind severityOf).or (map code) := by
    induction fields with
    | nil => intro map _; rfl
    | cons f fields ih =>
      intro map hmap
      rw [List.map_cons,List.nodup_cons] at h
      have hnot : map f.1 = none := hmap _ List.mem_cons_self
      rw [List.foldl_cons,Json.lookup_cons]
      cases hsev : severityOf f.2 with
      | none =>
        dsimp only
        rw [ih h.2 map fun k hk => hmap k (List.mem_cons_of_mem _ hk)]
        split_ifs with hcode
        · rw [← hcode,Json.lookup_eq_none h.1,Option.bind_some,hsev,Option.bind_none]
        · rfl
      | some sev =>
        dsimp only
        rw [ih h.2 (Function.update map f.1 (some sev)) fun k hk => ?_]
        · split_ifs with hcode
          · rw [← hcode,Json.lookup_eq_none h.1,Option.bind_some,hsev,Function.update_self]
            rfl
          · rw [Function.update_of_ne (Ne.symm hcode)]
        · rw [Function.update_of_ne]
          · exact hmap k (List.mem_cons_of_mem _ hk)
          · rintro rfl
            exact h.1 hk
  rw [overridesOf,hfold _ fun _ _ => rfl,Option.or_none]

/-- The flags one after another. -/
def insertFlags (rules : List RuleOverrideArg) (fields : List (String × Json)) : List (String × Json) :=
  rules.foldl (fun fields r => Json.insertField r.code (.string r.level) fields) fields

theorem foldl_insert (rules : List RuleOverrideArg) (fields : List (String × Json)) :
    rules.foldl (fun obj r => Json.insert obj r.code (.string r.level)) (.object fields) =
      .object (insertFlags rules fields) := by
  induction rules generalizing fields with
  | nil => rfl
  | cons r rules ih => exact ih _

theorem nodup_insertFlags (rules : List RuleOverrideArg) {fields : List (String × Json)}
    (h : (fields.map Prod.fst).Nodup) : ((insertFlags rules fields).map Prod.fst).Nodup := by
  induction rules generalizing fields with
  | nil => exact h
  | cons r rules ih => exact ih (Json.nodup_insertField h _ _)

/-- Each level that a flag can have is read as a severity. -/
theorem level_known (r : RuleOverrideArg) : ∃ sev, RuleSeverity.fromStrLossy r.level = some sev := by
  have hall : ∀ level ∈ ruleLevels, (RuleSeverity.fromStrLossy level).isSome := by decide
  exact Option.isSome_iff_exists.mp (hall r.level r.known)

theorem lastFlag_cons (r : RuleOverrideArg) (rules : List RuleOverrideArg) (code : String) :
    lastFlag (r :: rules) code = (lastFlag rules code).or
      (if r.code = code then RuleSeverity.fromStrLossy r.level else none) := by
  rw [lastFlag,lastFlag,List.reverse_cons,List.find?_append]
  cases hfind : rules.reverse.find? fun r => r.code = code with
  | some last =>
    obtain ⟨sev,hsev⟩ := level_known last
    rw [Option.some_or,Option.bind_some,hsev,Option.some_or]
  | none =>
    rw [Option.none_or,Option.bind_none,Option.none_or]
    by_cases hcode : r.code = code <;> simp [hcode]

theorem severityOf_string (s : String) : severityOf (.string s) = RuleSeverity.fromStrLossy s := rfl

theorem lookup_insertFlags (rules : List RuleOverrideArg) (fields : List (String × Json)) (code : String) :
    (Json.lookup code (insertFlags rules fields)).bind severityOf =
      (lastFlag rules code).or ((Json.lookup code fields).bind severityOf) := by
  induction rules generalizing fields with
  | nil => rfl
  | cons r rules ih =>
    have hstep := ih (Json.insertField r.code (.string r.level) fields)
    rw [Json.lookup_insertField] at hstep
    rw [lastFlag_cons,Option.or_assoc]
    refine hstep.trans ?_
    congr 1
    obtain ⟨sev,hsev⟩ := level_known r
    by_cases hcode : code = r.code
    · rw [if_pos hcode,if_pos hcode.symm,Option.bind_some,severityOf_string,hsev,Option.some_or]
    · rw [if_neg hcode,if_neg (Ne.symm hcode),Option.none_or]

end overrides

section layers

variable {file : Json} {rules : List RuleOverrideArg} {styleRules : Bool}

/-- The rules of the file as they are merged with the flags. -/
def fileRules (file : Json) : List (String × Json) := ((file.get "rules").bind Json.asObject).getD []

theorem nodup_fileRules (h : file.Keyed) : ((fileRules file).map Prod.fst).Nodup := by
  rw [fileRules]
  cases hrules : file.get "rules" with
  | none => exact List.nodup_nil
  | some v =>
    cases hfields : v.asObject with
    | none => rw [Option.bind_some,hfields]; exact List.nodup_nil
    | some fields =>
      rw [Option.bind_some,hfields]
      exact (h.get hrules).nodup hfields

theorem ruleOverrides_eq (h : (settingsOf file).Keyed) (code : String) :
    (updateFromJson {} file).ruleOverrides code =
      (Json.lookup code (fileRules (settingsOf file))).bind severityOf := by
  have hnodup := nodup_fileRules h
  rw [← overridesOf_eq hnodup]
  show ((((settingsOf file).get "rules").bind Json.asObject).map overridesOf).getD (fun _ => none) code = _
  rw [fileRules]
  cases ((settingsOf file).get "rules").bind Json.asObject <;> rfl

theorem get_merged (hobject : file.isObject) (key : String) :
    (buildConfigJson (some file) rules styleRules).get key =
      if key = "styleRules" ∧ (styleRules ∨ ((file.get "styleRules").bind Json.asBool).isNone) then
        some (.bool styleRules)
      else if key = "rules" then some (.object (insertFlags rules (fileRules file)))
      else file.get key := by
  have hrules : (((some file).bind (Json.get · "rules")).filter Json.isObject).getD (.object []) =
      .object (fileRules file) := by
    rw [fileRules,Option.bind_some]
    cases hget : file.get "rules" with
    | none => rfl
    | some v => cases v <;> rfl
  have hmerged : (file.insert "rules" (.object (insertFlags rules (fileRules file)))).isObject :=
    Json.isObject_insert hobject _ _
  have hstyle : (file.insert "rules" (.object (insertFlags rules (fileRules file)))).get "styleRules" =
      file.get "styleRules" := by
    rw [Json.get_insert hobject,if_neg (by decide)]
  rw [buildConfigJson,hrules,foldl_insert,Option.getD_some,hstyle]
  cases styleRules with
  | true =>
    rw [if_pos rfl,Json.get_insert hmerged,Json.get_insert hobject]
    simp
  | false =>
    rw [if_neg Bool.false_ne_true]
    by_cases hnone : ((file.get "styleRules").bind Json.asBool).isNone = true
    · rw [if_pos hnone,Json.get_insert hmerged,Json.get_insert hobject]
      simp only [hnone,or_true,and_true]
    · rw [if_neg hnone,Json.get_insert hobject]
      simp [hnone]

/-- In a wrapped file the flags end beside the settings. -/
theorem updateFromJson_wrapped (hobject : file.isObject) {settings : Json}
    (h : file.get wrapperKey = some settings) (config : Config) :
    updateFromJson config (buildConfigJson (some file) rules styleRules) = updateFromJson config file := by
  have hsettings : settingsOf (buildConfigJson (some file) rules styleRules) = settingsOf file := by
    rw [settingsOf,settingsOf,get_merged hobject,if_neg (fun hkey => by simp [wrapperKey] at hkey),
      if_neg (by decide),h]
    rfl
  rw [updateFromJson,updateFromJson,hsettings]

/-- In a flat file the flags are laid over the settings. -/
theorem updateFromJson_flat (hobject : file.isObject) (hkeyed : file.Keyed)
    (h : file.get wrapperKey = none) : updateFromJson {} (buildConfigJson (some file) rules styleRules) =
      overlaid (updateFromJson {} file) rules styleRules := by
  have hfile : settingsOf file = file := by rw [settingsOf,h]; rfl
  have hmerged : settingsOf (buildConfigJson (some file) rules styleRules) =
      buildConfigJson (some file) rules styleRules := by
    rw [settingsOf,get_merged hobject,if_neg (fun hkey => by simp [wrapperKey] at hkey),
      if_neg (by decide),h]
    rfl
  have hother {key : String} (hrules : key ≠ "rules") (hstyle : key ≠ "styleRules") :
      (buildConfigJson (some file) rules styleRules).get key = file.get key := by
    rw [get_merged hobject,if_neg (fun hkey => hstyle hkey.1),if_neg hrules]
  have hoverrides : (((buildConfigJson (some file) rules styleRules).get "rules").bind
      Json.asObject).map overridesOf = some fun code =>
        (lastFlag rules code).or ((updateFromJson {} file).ruleOverrides code) := by
    rw [get_merged hobject,if_neg (by simp),if_pos rfl]
    refine congrArg some (funext fun code => ?_)
    have hnodup := nodup_fileRules hkeyed
    rw [overridesOf_eq (nodup_insertFlags rules hnodup),lookup_insertFlags,
      ruleOverrides_eq (hfile.symm ▸ hkeyed),hfile]
  have hstyle : (((buildConfigJson (some file) rules styleRules).get "styleRules").bind Json.asBool).getD
      false = (styleRules || (((file.get "styleRules").bind Json.asBool).getD false)) := by
    rw [get_merged hobject]
    cases styleRules with
    | true => simp [Json.asBool]
    | false =>
      cases hbool : (file.get "styleRules").bind Json.asBool with
      | none => simp [Json.asBool]
      | some b => simp [hbool]
  rw [updateFromJson,hmerged]
  dsimp only
  rw [hoverrides,hstyle]
  rw [hother (by decide) (by decide),hother (by decide) (by decide),hother (by decide) (by decide),
    hother (by decide) (by decide),hother (by decide) (by decide),hother (by decide) (by decide),
    hother (by decide) (by decide)]
  simp only [overlaid,updateFromJson,hfile,Option.getD_some]

theorem overlaid_eq_self_iff {config : Config} : overlaid config rules styleRules = config ↔
    (∀ code sev, lastFlag rules code = some sev → config.ruleOverrides code = some sev) ∧
      (styleRules = true → config.styleRules = true) := by
  constructor
  · intro h
    have hoverrides := congrArg Config.ruleOverrides h
    have hstyle := congrArg Config.styleRules h
    refine ⟨fun code sev hsev => ?_,fun hs => ?_⟩
    · have hcode : (lastFlag rules code).or (config.ruleOverrides code) = config.ruleOverrides code :=
        congrFun hoverrides code
      rw [hsev,Option.some_or] at hcode
      exact hcode.symm
    · rw [overlaid,hs,Bool.true_or] at hstyle
      exact hstyle.symm
  · rintro ⟨hrules,hstyle⟩
    have hoverrides : (fun code => (lastFlag rules code).or (config.ruleOverrides code)) =
        config.ruleOverrides := by
      funext code
      cases hsev : lastFlag rules code with
      | none => rw [Option.none_or]
      | some sev => rw [Option.some_or,hrules code sev hsev]
    have hflag : (styleRules || config.styleRules) = config.styleRules := by
      cases styleRules with
      | true => rw [hstyle rfl]; rfl
      | false => rfl
    rw [overlaid,hoverrides,hflag]

/-- The flags win over a file exactly if it is flat, or if its settings already say what
the flags do. -/
theorem flags_win_iff {file : Json} (hobject : file.isObject) (hkeyed : file.Keyed)
    (rules : List RuleOverrideArg) (styleRules : Bool) :
    updateFromJson {} (buildConfigJson (some file) rules styleRules) =
        overlaid (updateFromJson {} file) rules styleRules ↔
      ∀ settings, file.get wrapperKey = some settings → AlreadySaid settings rules styleRules := by
  cases hget : file.get wrapperKey with
  | none =>
    refine ⟨fun _ settings h => ?_,fun _ => updateFromJson_flat hobject hkeyed hget⟩
    cases h
  | some settings =>
    have hsettings : settingsOf file = settings := by rw [settingsOf,hget]; rfl
    have hlookup (code : String) : (Json.lookup code (fileRules settings)).bind severityOf =
        ((settings.get "rules").bind (Json.get · code)).bind severityOf := by
      rw [fileRules]
      cases hrules : settings.get "rules" with
      | none => rfl
      | some v => cases v <;> rfl
    have hstyle : (updateFromJson {} file).styleRules = true ↔
        (settings.get "styleRules").bind Json.asBool = some true := by
      show (((settingsOf file).get "styleRules").bind Json.asBool).getD false = true ↔ _
      rw [hsettings]
      cases (settings.get "styleRules").bind Json.asBool <;> simp
    rw [updateFromJson_wrapped hobject hget,eq_comm,overlaid_eq_self_iff,hstyle]
    simp only [ruleOverrides_eq (hsettings ▸ hkeyed.get hget),hsettings,hlookup]
    constructor
    · rintro ⟨hrules,hstyle⟩ _ h
      obtain rfl := Option.some.inj h
      exact ⟨hrules,hstyle⟩
    · intro h
      exact ⟨(h settings rfl).rules,(h settings rfl).style⟩

/-- A flat file: the flag wins over its rule, and its other rule stays. -/
theorem flags_win_flat : updateFromJson {} (buildConfigJson (some (.object [("rules",.object
      [("a",.string "off"),("b",.string "hint")])])) [⟨"a","error",by decide⟩] true) =
    overlaid (updateFromJson {} (.object [("rules",.object [("a",.string "off"),("b",.string "hint")])]))
      [⟨"a","error",by decide⟩] true := by
  refine (flags_win_iff rfl ?_ _ _).mpr ?_
  · simp [Json.Keyed,Json.KeyedFields]
  · intro settings h
    cases h

/-- A wrapped file: the flag is dropped. -/
theorem flags_lost_wrapped :
    (updateFromJson {} (buildConfigJson (some (.object [("terraform-ls-rs",.object [])]))
      [⟨"a","error",by decide⟩] false)) ≠
    overlaid (updateFromJson {} (.object [("terraform-ls-rs",.object [])])) [⟨"a","error",by decide⟩] false := by
  intro h
  have hcode := congrFun (congrArg Config.ruleOverrides h) "a"
  revert hcode
  decide

end layers

end RuleFlags
end TerraformLs
