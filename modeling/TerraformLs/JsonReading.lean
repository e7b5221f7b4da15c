import TerraformLs.JsonDocument

/-! A written string or value is read as the document says, whatever follows it. -/
namespace TerraformLs
namespace JsonConfig

open PlainReader

section strings

variable {L : Lexicon}

theorem lead_opens {c : Char} {rest after : Rope} (h : lead c rest = .opens after) :
    isMarker c = true ∧ rest = '{' :: after := by
  rw [lead] at h
  split_ifs at h with hc hhead
  obtain ⟨tail,rfl⟩ := List.head?_eq_some_iff.mp hhead
  cases h
  exact ⟨hc,rfl⟩

theorem lead_escaped {c : Char} {rest after : Rope} (h : lead c rest = .escaped after) :
    isMarker c = true ∧ rest = c :: '{' :: after := by
  rw [lead] at h
  split_ifs at h with hc hhead htake
  have hsplit := List.take_append_drop 2 rest
  cases h
  rw [htake] at hsplit
  exact ⟨hc,hsplit.symm⟩

theorem lead_opens_self {c : Char} (hc : isMarker c = true) (after : Rope) :
    lead c ('{' :: after) = .opens after := by
  rw [lead,if_pos hc]
  rfl

theorem lead_escaped_self {c : Char} (hc : isMarker c = true) (after : Rope) :
    lead c (c :: '{' :: after) = .escaped after := by
  have hbrace : c ≠ '{' := by
    intro h
    subst h
    cases hc
  rw [lead,if_pos hc]
  simp [hbrace]

/-- A character other than the escaping ones is written as it is. -/
theorem escapeChar_cases (c : Char) : escapeChar c = [c] ∧ c ≠ '\\' ∧ c ≠ '"' ∧ c ≠ '\n' ∨
    ∃ d, escapeChar c = ['\\',d] ∧ unescape d = some c := by
  unfold escapeChar
  split
  · exact .inr ⟨_,rfl,rfl⟩
  · exact .inr ⟨_,rfl,rfl⟩
  · exact .inr ⟨_,rfl,rfl⟩
  · exact .inr ⟨_,rfl,rfl⟩
  · exact .inr ⟨_,rfl,rfl⟩
  · rename_i h₁ h₂ h₃ _ _
    exact .inl ⟨rfl,h₁,h₂,h₃⟩

/-- The first character of an escaped text, unless it escapes. -/
theorem escaped_head {text tail after : Rope} {d : Char} (hd : d ≠ '\\') (hq : d ≠ '"')
    (h : text.flatMap escapeChar ++ '"' :: tail = d :: after) :
    ∃ rest, text = d :: rest ∧ after = rest.flatMap escapeChar ++ '"' :: tail := by
  cases text with
  | nil =>
    cases h
    exact absurd rfl hq
  | cons c rest =>
    rw [List.flatMap_cons] at h
    obtain ⟨hplain,-⟩ | ⟨e,hescape,-⟩ := escapeChar_cases c
    · rw [hplain] at h
      obtain ⟨rfl,rfl⟩ := List.cons.inj h
      exact ⟨rest,rfl,rfl⟩
    · rw [hescape] at h
      obtain ⟨rfl,-⟩ := List.cons.inj h
      exact absurd rfl hd

theorem lead_plain_escaped {c : Char} {rest : Rope} (h : lead c rest = .plain) (tail : Rope) :
    lead c (rest.flatMap escapeChar ++ '"' :: tail) = .plain := by
  cases hlead : lead c (rest.flatMap escapeChar ++ '"' :: tail) with
  | plain => rfl
  | opens after =>
    obtain ⟨hc,hbrace⟩ := lead_opens hlead
    obtain ⟨rest',rfl,-⟩ := escaped_head (by decide) (by decide) hbrace
    rw [lead_opens_self hc] at h
    cases h
  | escaped after =>
    obtain ⟨hc,hdouble⟩ := lead_escaped hlead
    have hne : c ≠ '\\' ∧ c ≠ '"' := by
      constructor <;> rintro rfl <;> cases hc
    obtain ⟨rest',rfl,hbrace⟩ := escaped_head hne.1 hne.2 hdouble
    obtain ⟨rest'',rfl,-⟩ := escaped_head (by decide) (by decide) hbrace.symm
    rw [lead_escaped_self hc] at h
    cases h

theorem marker_plain {c : Char} (hc : isMarker c = true) :
    escapeChar c = [c] ∧ c ≠ '\\' ∧ c ≠ '"' ∧ c ≠ '\n' := by
  rw [isMarker,Bool.or_eq_true,decide_eq_true_eq,decide_eq_true_eq] at hc
  rcases hc with rfl | rfl <;> exact ⟨rfl,by decide,by decide,by decide⟩

theorem readQuoted_plain {c : Char} (h : c ≠ '\\' ∧ c ≠ '"' ∧ c ≠ '\n') (fuel : ℕ) (rest : Rope)
    (hlead : lead c rest = .plain) : readQuoted L (fuel+1) (c :: rest) =
      (readQuoted L fuel rest).map fun (pieces,after) => (.char c :: pieces,after) := by
  rw [readQuoted.eq_def]
  simp only [if_neg h.2.1,if_neg h.1,if_neg h.2.2,hlead]

theorem readQuoted_opens {c : Char} (hc : isMarker c = true) (fuel : ℕ) (after : Rope) :
    readQuoted L (fuel+1) (c :: '{' :: after) = (L.close after).bind fun (inside,after) =>
      (readQuoted L fuel after).map fun (pieces,after) => (.sequence c inside :: pieces,after) := by
  obtain ⟨-,h₁,h₂,h₃⟩ := marker_plain hc
  rw [readQuoted,if_neg h₂,if_neg h₁,if_neg h₃,lead_opens_self hc]

theorem readQuoted_double {c : Char} (hc : isMarker c = true) (fuel : ℕ) (after : Rope) :
    readQuoted L (fuel+1) (c :: c :: '{' :: after) =
      (readQuoted L fuel after).map fun (pieces,after) =>
        (.char c :: .char '{' :: pieces,after) := by
  obtain ⟨-,h₁,h₂,h₃⟩ := marker_plain hc
  rw [readQuoted,if_neg h₂,if_neg h₁,if_neg h₃,lead_escaped_self hc]

theorem readQuoted_escape {c d : Char} (h : unescape d = some c) (fuel : ℕ) (rest : Rope) :
    readQuoted L (fuel+1) ('\\' :: d :: rest) =
      (readQuoted L fuel rest).map fun (pieces,after) => (.char c :: pieces,after) := by
  rw [readQuoted,if_neg (by decide),if_pos rfl,h,Option.bind_some]

/-- Escaping keeps a template, when nothing in its sequences is escaped. -/
theorem readQuoted_escaped {n : ℕ} {text : Rope} {pieces : List Piece}
    (h : readBare L n text = some pieces)
    (hkept : ∀ marker inside, .sequence marker inside ∈ pieces →
      inside.flatMap escapeChar = inside) (tail : Rope) :
    ∀ m ≥ n, readQuoted L m (text.flatMap escapeChar ++ '"' :: tail) = some (pieces,tail) := by
  induction n generalizing text pieces with
  | zero => cases h
  | succ n ih =>
    intro m hm
    obtain ⟨m,rfl⟩ := Nat.exists_eq_add_of_le' (Nat.le_of_add_left_le hm)
    have hm : m ≥ n := by omega
    cases text with
    | nil =>
      cases h
      rfl
    | cons c rest =>
      rw [readBare] at h
      rw [List.flatMap_cons,List.append_assoc]
      split at h
      · rename_i after hlead
        obtain ⟨hc,rfl⟩ := lead_opens hlead
        obtain ⟨⟨inside,after'⟩,hclose,h⟩ := Option.bind_eq_some_iff.mp h
        obtain ⟨more,hmore,rfl⟩ := Option.map_eq_some_iff.mp h
        have hsplit := L.close_split _ _ _ hclose
        subst hsplit
        have hinside := hkept c inside List.mem_cons_self
        have hrest := ih hmore (fun marker text hmem => hkept marker text (List.mem_cons_of_mem _ hmem)) m hm
        have hlocal := L.close_local _ _ (after'.flatMap escapeChar ++ '"' :: tail) hclose
        have htext : escapeChar c ++ (('{' :: (inside ++ '}' :: after')).flatMap escapeChar ++
            '"' :: tail) = c :: '{' :: (inside ++ '}' :: (after'.flatMap escapeChar ++
              '"' :: tail)) := by
          rw [(marker_plain hc).1,List.flatMap_cons,List.flatMap_append,List.flatMap_cons,hinside]
          simp [escapeChar]
        rw [htext,readQuoted_opens hc,hlocal,Option.bind_some]
        show (readQuoted L m _).map _ = _
        rw [hrest]
        rfl
      · rename_i after hlead
        obtain ⟨hc,rfl⟩ := lead_escaped hlead
        obtain ⟨more,hmore,rfl⟩ := Option.map_eq_some_iff.mp h
        have hrest := ih hmore (fun marker text hmem => hkept marker text
          (List.mem_cons_of_mem _ (List.mem_cons_of_mem _ hmem))) m hm
        have htext : escapeChar c ++ ((c :: '{' :: after).flatMap escapeChar ++ '"' :: tail) =
            c :: c :: '{' :: (after.flatMap escapeChar ++ '"' :: tail) := by
          rw [List.flatMap_cons,List.flatMap_cons,(marker_plain hc).1]
          rfl
        rw [htext,readQuoted_double hc,hrest]
        rfl
      · rename_i hlead
        obtain ⟨more,hmore,rfl⟩ := Option.map_eq_some_iff.mp h
        have hrest := ih hmore (fun marker text hmem => hkept marker text
          (List.mem_cons_of_mem _ hmem)) m hm
        obtain ⟨hplain,hne⟩ | ⟨d,hescape,hd⟩ := escapeChar_cases c
        · rw [hplain,List.singleton_append,
            readQuoted_plain hne m _ (lead_plain_escaped hlead tail),hrest]
          rfl
        · rw [hescape]
          show readQuoted L (m+1) ('\\' :: d :: (rest.flatMap escapeChar ++ '"' :: tail)) = _
          rw [readQuoted_escape hd,hrest]
          rfl

end strings

section values

variable {L : Lexicon}

/-- A number written before the text ends there. -/
def Stops (tail : Rope) : Prop := ∀ c ∈ tail.head?, isNumberChar c = false

theorem stops_cons {c : Char} (h : isNumberChar c = false) (rest : Rope) : Stops (c :: rest) := by
  intro d hd
  cases hd
  exact h

theorem skipBlank_of {c : Char} (h : c ≠ ' ') (rest : Rope) : skipBlank (c :: rest) = c :: rest := by
  rw [skipBlank,List.dropWhile_cons_of_neg (by simpa using h)]

theorem skipSpace_of {c : Char} (h : c ≠ ' ' ∧ c ≠ '\n') (rest : Rope) :
    skipSpace (c :: rest) = c :: rest := by
  rw [skipSpace,List.dropWhile_cons_of_neg (by simpa using h)]

theorem skipSpace_indent (n : ℕ) (text : Rope) : skipSpace (indentPush n ++ text) = skipSpace text := by
  rw [skipSpace,List.dropWhile_append_of_pos]
  · rfl
  · intro c hc
    rw [List.eq_of_mem_replicate hc]
    rfl

/-- A value begins with a character that neither ends an array nor is skipped. -/
theorem writeValue_head {v : Json} {e : Expression} (h : jsonValue L v = some e) (indent : ℕ) :
    ∃ c rest, writeValue indent v = c :: rest ∧ c ≠ ' ' ∧ c ≠ ']' := by
  cases v with
  | null => exact ⟨'n',"ull".toList,rfl,by decide⟩
  | bool b =>
    cases b with
    | true => exact ⟨'t',"rue".toList,rfl,by decide⟩
    | false => exact ⟨'f',"alse".toList,rfl,by decide⟩
  | number digits =>
    rw [jsonValue] at h
    split_ifs at h with hdigits
    obtain ⟨c,rest,hcons⟩ := List.exists_cons_of_ne_nil hdigits.1
    have hc : isNumberChar c = true := by
      apply List.all_eq_true.mp hdigits.2
      rw [hcons]
      exact List.mem_cons_self
    refine ⟨c,rest,hcons,?_,?_⟩ <;> rintro rfl <;> cases hc
  | string s => exact ⟨'"',_,rfl,by decide⟩
  | array items => exact ⟨'[',_,rfl,by decide⟩
  | object fields => exact ⟨'{',_,rfl,by decide⟩

theorem skipBlank_value {v : Json} {e : Expression} (h : jsonValue L v = some e) (indent : ℕ)
    (tail : Rope) : skipBlank (writeValue indent v ++ tail) = writeValue indent v ++ tail := by
  obtain ⟨c,rest,hcons,hc,-⟩ := writeValue_head h indent
  rw [hcons]
  exact skipBlank_of hc _

theorem readQuoted_string {s : String} {pieces : List Piece} (h : stringPieces L s = some pieces)
    (hkept : KeptString L s) (tail : Rope) :
    Settles (fun m => readQuoted L m (escapeString s ++ '"' :: tail)) (pieces,tail) :=
  ⟨_,readQuoted_escaped h (hkept pieces h) tail⟩

theorem readValue_number {digits : Rope} (hne : digits ≠ [])
    (hdigits : digits.all isNumberChar = true) {tail : Rope} (htail : Stops tail) (fuel : ℕ) :
    readValue L (fuel+1) (digits ++ tail) = (L.number digits).map fun e => (e,tail) := by
  obtain ⟨c,rest,rfl⟩ := List.exists_cons_of_ne_nil hne
  have hall := List.all_eq_true.mp hdigits
  have hc := hall c List.mem_cons_self
  have hmarks : c ≠ '"' ∧ c ≠ '[' ∧ c ≠ '{' := by
    refine ⟨?_,?_,?_⟩ <;> rintro rfl <;> cases hc
  have hstop : tail.takeWhile isNumberChar = [] ∧ tail.dropWhile isNumberChar = tail := by
    cases tail with
    | nil => exact ⟨rfl,rfl⟩
    | cons d tail =>
      have hd := htail d rfl
      simp [hd]
  have htake : (c :: rest ++ tail).takeWhile isNumberChar = c :: rest := by
    rw [List.takeWhile_append_of_pos hall,hstop.1,List.append_nil]
  have hdrop : (c :: rest ++ tail).dropWhile isNumberChar = tail := by
    rw [List.dropWhile_append_of_pos hall,hstop.2]
  rw [List.cons_append] at htake hdrop ⊢
  rw [readValue,if_neg hmarks.1,if_neg hmarks.2.1,if_neg hmarks.2.2,if_pos hc,htake,hdrop]

mutual

theorem readValue_written : ∀ (v : Json) (indent : ℕ) (e : Expression) (tail : Rope),
    jsonValue L v = some e → KeptValue L v → Stops tail →
      Settles (fun m => readValue L m (writeValue indent v ++ tail)) (e,tail)
  | .null, indent, e, tail, h, _, _ => by
    cases h
    exact settles_succ (fun m => rfl) (settles_const fun _ => rfl)
  | .bool true, indent, e, tail, h, _, _ => by
    cases h
    exact settles_succ (fun m => rfl) (settles_const fun _ => rfl)
  | .bool false, indent, e, tail, h, _, _ => by
    cases h
    exact settles_succ (fun m => rfl) (settles_const fun _ => rfl)
  | .number digits, indent, e, tail, h, _, htail => by
    rw [jsonValue] at h
    split_ifs at h with hdigits
    have hnumber : ∀ m, readValue L (m+1) (digits.toList ++ tail) = some (e,tail) := by
      intro m
      rw [readValue_number hdigits.1 hdigits.2 htail,h]
      rfl
    exact settles_succ hnumber (settles_const fun _ => rfl)
  | .string s, indent, e, tail, h, hkept, _ => by
    obtain ⟨pieces,hpieces,he⟩ := Option.bind_eq_some_iff.mp h
    have htext : writeValue indent (.string s) ++ tail = '"' :: (escapeString s ++ '"' :: tail) := by
      simp [writeValue,quoted]
    rw [htext]
    exact settles_string (readQuoted_string hpieces hkept tail) he
  | .array items, indent, e, tail, h, hkept, _ => by
    rw [jsonValue] at h
    obtain ⟨es,hes,rfl⟩ := Option.map_eq_some_iff.mp h
    have htext : writeValue indent (.array items) ++ tail =
        '[' :: (writeItems indent items ++ ']' :: tail) := by
      simp [writeValue]
    rw [htext]
    exact settles_array (readItems_written items indent es tail hes hkept)
  | .object fields, indent, e, tail, h, hkept, _ => by
    rw [jsonValue] at h
    obtain ⟨fs,hfs,rfl⟩ := Option.map_eq_some_iff.mp h
    have htext : writeValue indent (.object fields) ++ tail =
        '{' :: '\n' :: (writeFields indent fields ++ (indentPush indent ++ '}' :: tail)) := by
      simp [writeValue]
    rw [htext]
    exact settles_object (readFields_written fields indent fs tail hfs hkept)

theorem readItems_written : ∀ (vs : List Json) (indent : ℕ) (es : List Expression) (tail : Rope),
    jsonItems L vs = some es → KeptItems L vs →
      Settles (fun m => readItems L m (writeItems indent vs ++ ']' :: tail)) (es,tail)
  | [], indent, es, tail, h, _ => by
    cases h
    exact settles_items_nil tail
  | v::vs, indent, es, tail, h, hkept => by
    rw [jsonItems] at h
    obtain ⟨e,he,h⟩ := Option.bind_eq_some_iff.mp h
    obtain ⟨es,hes,rfl⟩ := Option.map_eq_some_iff.mp h
    obtain ⟨c,rest,hcons,-,hc⟩ := writeValue_head he indent
    have hhead : ∀ after : Rope, (writeValue indent v ++ after).head? ≠ some ']' := by
      intro after
      rw [hcons]
      simpa using hc
    cases vs with
    | nil =>
      cases hes
      have htext : writeItems indent [v] = writeValue indent v := by
        simp [writeItems]
      rw [htext]
      exact settles_items_last (hhead _)
        (readValue_written v indent e (']' :: tail) he hkept.1 (stops_cons rfl tail))
    | cons w vs =>
      obtain ⟨f,hf,-⟩ := Option.bind_eq_some_iff.mp hes
      have hitems := readItems_written (w :: vs) indent es tail hes hkept.2
      have htext : writeItems indent (v :: w :: vs) ++ ']' :: tail =
          writeValue indent v ++ (',' :: ' ' :: (writeItems indent (w :: vs) ++ ']' :: tail)) := by
        rw [writeItems]
        simp
      have hblank : skipBlank (' ' :: (writeItems indent (w :: vs) ++ ']' :: tail)) =
          writeItems indent (w :: vs) ++ ']' :: tail := by
        rw [writeItems,List.append_assoc,List.append_assoc]
        exact skipBlank_value hf indent _
      rw [← hblank] at hitems
      rw [htext]
      exact settles_items_cons (hhead _)
        (readValue_written v indent e _ he hkept.1 (stops_cons rfl _)) hitems

theorem readFields_written : ∀ (fields : List (String × Json)) (indent : ℕ)
    (fs : List (ObjectKey × Expression)) (tail : Rope),
    jsonFields L fields = some fs → KeptFields L fields →
      Settles (fun m => readFields L m (skipSpace
        (writeFields indent fields ++ (indentPush indent ++ '}' :: tail)))) (fs,tail)
  | [], indent, fs, tail, h, _ => by
    cases h
    rw [writeFields,List.nil_append,skipSpace_indent,skipSpace_of (by decide)]
    exact settles_fields_nil tail
  | (key,v)::fields, indent, fs, tail, h, hkept => by
    rw [jsonFields] at h
    obtain ⟨k,hk,h⟩ := Option.bind_eq_some_iff.mp h
    obtain ⟨e,he,h⟩ := Option.bind_eq_some_iff.mp h
    obtain ⟨more,hmore,rfl⟩ := Option.map_eq_some_iff.mp h
    obtain ⟨pieces,hpieces,htemplate⟩ := Option.bind_eq_some_iff.mp hk
    have hfields := readFields_written fields indent more tail hmore hkept.2.2
    have htext : writeFields indent ((key,v) :: fields) ++ (indentPush indent ++ '}' :: tail) =
        indentPush (indent+1) ++ ('"' :: (escapeString key ++ '"' :: (' ' :: '=' :: ' ' ::
          (writeValue (indent+1) v ++
            '\n' :: (writeFields indent fields ++ (indentPush indent ++ '}' :: tail)))))) := by
      simp [writeFields,quoted]
    rw [htext,skipSpace_indent,skipSpace_of (by decide)]
    generalize writeFields indent fields ++ (indentPush indent ++ '}' :: tail) = next at hfields ⊢
    have hvalue := readValue_written v (indent+1) e ('\n' :: next) he hkept.2.1 (stops_cons rfl _)
    have hblank : skipBlank (' ' :: (writeValue (indent+1) v ++ '\n' :: next)) =
        writeValue (indent+1) v ++ '\n' :: next := skipBlank_value he _ _
    rw [← hblank] at hvalue
    exact settles_fields_cons (readQuoted_string hpieces hkept.1 _) htemplate rfl hvalue hfields

end

end values

end JsonConfig
end TerraformLs
