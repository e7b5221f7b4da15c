import TerraformLs.BodyCursors

/-! The path of a key in the schema, as completion and as a hover find it. -/
namespace TerraformLs
namespace BodyCursors

open Rope

section spec

/-- The keyword and the labels end before an offset. -/
def HeaderBefore (header : Header) (offset : ℕ) : Prop :=
  (∀ span, header.identSpan = some span → span.2 < offset) ∧
    ∀ label ∈ header.labels, ∀ span, label.2 = some span → span.2 < offset

/-- Where a parsed document has its structures: one behind the other between two offsets, the
body of a block behind its header. -/
def Placed : ℕ → ℕ → Body → Prop
  | _, _, .nil => True
  | lo, hi, .attribute attr rest =>
    ∃ s, attr.keySpan = some s ∧ lo ≤ s.1 ∧ s.1 ≤ s.2 ∧ s.2 ≤ hi ∧ Placed (s.2+1) hi rest
  | lo, hi, .block header body rest =>
    ∃ s, header.span = some s ∧ lo ≤ s.1 ∧ s.1 ≤ s.2 ∧ s.2 ≤ hi ∧
      (∀ r, header.bodySpan = some r →
        s.1 < r.1 ∧ r.2 ≤ s.2 ∧ HeaderBefore header r.1 ∧ Placed r.1 r.2 body) ∧
      (header.bodySpan = none → body = .nil) ∧ Placed (s.2+1) hi rest

/-- The blocks that lead from a body down to an attribute. -/
inductive Reaches (attr : Attribute) : Body → List Block → Prop
  | here {body : Body} (hmem : attr ∈ body.attributes) : Reaches attr body []
  | inside {body : Body} {block : Block} {blocks : List Block} (hmem : block ∈ body.blocks)
      (hrest : Reaches attr block.2 blocks) : Reaches attr body (block::blocks)

def labelText (header : Header) : String := (header.labels.head?.map fun label => label.1.asStr).getD ""

mutual

/-- A dynamic block is replaced by its label, and its `content` is skipped. -/
def schemaPath : List Block → List String
  | [] => []
  | block::blocks =>
    if block.1.ident = "dynamic" then labelText block.1 :: contentPath blocks
    else block.1.ident :: schemaPath blocks

def contentPath : List Block → List String
  | [] => []
  | _::blocks => schemaPath blocks

end

mutual

/-- Dynamic blocks have labels, and only `content` is looked through in them. -/
def Regular : List Block → Prop
  | [] => True
  | block::blocks =>
    if block.1.ident = "dynamic" then block.1.labels ≠ [] ∧ RegularContent blocks else Regular blocks

def RegularContent : List Block → Prop
  | [] => True
  | block::blocks => block.1.ident = "content" ∧ Regular blocks

end

/-- The path of a hit. The meta-arguments of a dynamic block are known by its label alone. -/
def Hit.HasPath (path : List String) : Hit → Prop
  | .attribute _ nestedPath _ _ => nestedPath = path
  | .dynamicMetaAttr target _ _ => path.getLast? = some target
  | .nestedBlockHeader _ _ _ _ _ => False
  | .blockLabel _ _ _ _ => False

def BodyFilter.Lists (filter : BodyFilter) (body : Body) : Prop :=
  (∀ name, name ∈ filter.presentAttrs ↔ name ∈ body.attributes.map Attribute.key) ∧
    ∀ name, filter.presentBlocks name = (body.blocks.map fun block => block.1.ident).count name

/-- The cursor is not just behind the brace of the block. -/
def BehindBrace (offset : ℕ) (block : Block) : Prop :=
  ∀ r, block.1.bodySpan = some r → r.1 < offset

/-- Completion and the hover agree on a key below the blocks. -/
structure Agree (rope : Rope) (body : Body) (pos : Position) (offset : ℕ) (block : Block)
    (blocks : List Block) : Prop where
  hit : ∃ hit, findHitAt body rope pos = some hit ∧ hit.HasPath (nestedBlockPath offset body)
  path : nestedBlockPath offset body = schemaPath blocks
  filter : (computeBodyFilter offset (some body)).Lists (blocks.getLast?.getD block).2
  dynamic : cursorOnDynamicBody offset (some body) = true ↔
    (blocks.getLast?.getD block).1.ident = "dynamic"

end spec

section lemmas

variable {offset lo hi : ℕ} {attr : Attribute} {block : Block} {body : Body} {blocks : List Block}

theorem spanContainsOffset_some {span : Span} :
    spanContainsOffset (some span) offset = true ↔ span.1 ≤ offset ∧ offset ≤ span.2 := by
  simp [spanContainsOffset]

/-- No structure is at the cursor. -/
structure Clear (offset : ℕ) (body : Body) : Prop where
  attributes : ∀ attr ∈ body.attributes, spanContainsOffset attr.keySpan offset = false
  blocks : ∀ block ∈ body.blocks, spanContainsOffset block.1.span offset = false
  bodies : ∀ block ∈ body.blocks, cursorInBlockBody block.1 offset = false

/-- The block at the cursor: none before and none behind it is there. -/
inductive Stands (offset : ℕ) (block : Block) : Body → Prop
  | here {rest : Body} (hspan : spanContainsOffset block.1.span offset = true)
      (hrest : Clear offset rest) : Stands offset block (.block block.1 block.2 rest)
  | behindAttribute {attr : Attribute} {rest : Body}
      (hspan : spanContainsOffset attr.keySpan offset = false) (hrest : Stands offset block rest) :
      Stands offset block (.attribute attr rest)
  | behindBlock {header : Header} {inner rest : Body}
      (hspan : spanContainsOffset header.span offset = false)
      (hbody : cursorInBlockBody header offset = false) (hrest : Stands offset block rest) :
      Stands offset block (.block header inner rest)

/-- The key at the cursor. -/
inductive AtKey (offset : ℕ) (attr : Attribute) : Body → Prop
  | here {rest : Body} (hspan : spanContainsOffset attr.keySpan offset = true)
      (hrest : Clear offset rest) : AtKey offset attr (.attribute attr rest)
  | behindAttribute {attr' : Attribute} {rest : Body}
      (hspan : spanContainsOffset attr'.keySpan offset = false) (hrest : AtKey offset attr rest) :
      AtKey offset attr (.attribute attr' rest)
  | behindBlock {header : Header} {inner rest : Body}
      (hspan : spanContainsOffset header.span offset = false)
      (hbody : cursorInBlockBody header offset = false) (hrest : AtKey offset attr rest) :
      AtKey offset attr (.block header inner rest)

/-! ### Where structures stand -/

theorem not_contains_of_lt {span : Option Span} {s : Span} (hspan : span = some s)
    (hlt : offset < s.1) : spanContainsOffset span offset = false := by
  rw [hspan,← Bool.not_eq_true,spanContainsOffset_some]
  omega

theorem not_contains_of_gt {span : Option Span} {s : Span} (hspan : span = some s)
    (hlt : s.2 < offset) : spanContainsOffset span offset = false := by
  rw [hspan,← Bool.not_eq_true,spanContainsOffset_some]
  omega

/-- Where the span of a block is not, its body is not. -/
theorem not_in_body {header : Header} {s : Span} (hspan : header.span = some s)
    (hbody : ∀ r, header.bodySpan = some r → s.1 ≤ r.1 ∧ r.2 ≤ s.2)
    (hnot : spanContainsOffset header.span offset = false) :
    cursorInBlockBody header offset = false := by
  rw [cursorInBlockBody]
  cases hr : header.bodySpan with
  | none => exact hnot
  | some r =>
    have hle := hbody r hr
    rw [hspan,← Bool.not_eq_true,spanContainsOffset_some] at hnot
    simp only [Bool.and_eq_false_iff,decide_eq_false_iff_not]
    omega

theorem Placed.clear_of_lt (h : Placed lo hi body) (hlt : offset < lo) : Clear offset body := by
  induction body generalizing lo with
  | nil => exact ⟨by simp [Body.attributes],by simp [Body.blocks],by simp [Body.blocks]⟩
  | «attribute» attr rest ih =>
    obtain ⟨s,hs,hlo,hle,-,hrest⟩ := h
    have hclear := ih hrest (by omega)
    refine ⟨?_,hclear.blocks,hclear.bodies⟩
    rw [Body.attributes,List.forall_mem_cons]
    exact ⟨not_contains_of_lt hs (by omega),hclear.attributes⟩
  | block header inner rest _ ih =>
    obtain ⟨s,hs,hlo,hle,-,hbody,-,hrest⟩ := h
    have hclear := ih hrest (by omega)
    have hnot : spanContainsOffset header.span offset = false := not_contains_of_lt hs (by omega)
    refine ⟨hclear.attributes,?_,?_⟩
    · rw [Body.blocks,List.forall_mem_cons]
      exact ⟨hnot,hclear.blocks⟩
    · rw [Body.blocks,List.forall_mem_cons]
      exact ⟨not_in_body hs (fun r hr => ⟨(hbody r hr).1.le,(hbody r hr).2.1⟩) hnot,hclear.bodies⟩

theorem Placed.keySpan (h : Placed lo hi body) (hmem : attr ∈ body.attributes) :
    ∃ s, attr.keySpan = some s ∧ lo ≤ s.1 ∧ s.2 ≤ hi := by
  induction body generalizing lo with
  | nil => cases hmem
  | «attribute» attr' rest ih =>
    obtain ⟨s,hs,hlo,hle,hhi,hrest⟩ := h
    rcases List.mem_cons.mp hmem with rfl | hmem
    · exact ⟨s,hs,hlo,hhi⟩
    · obtain ⟨s',hs',hlo',hhi'⟩ := ih hrest hmem
      exact ⟨s',hs',by omega,hhi'⟩
  | block header inner rest _ ih =>
    obtain ⟨s,hs,hlo,hle,-,-,-,hrest⟩ := h
    obtain ⟨s',hs',hlo',hhi'⟩ := ih hrest hmem
    exact ⟨s',hs',by omega,hhi'⟩

theorem Placed.blockSpan (h : Placed lo hi body) (hmem : block ∈ body.blocks) :
    ∃ s, block.1.span = some s ∧ lo ≤ s.1 ∧ s.2 ≤ hi ∧ (∀ r, block.1.bodySpan = some r →
      s.1 < r.1 ∧ r.2 ≤ s.2 ∧ HeaderBefore block.1 r.1 ∧ Placed r.1 r.2 block.2) ∧
      (block.1.bodySpan = none → block.2 = .nil) := by
  induction body generalizing lo with
  | nil => cases hmem
  | «attribute» attr rest ih =>
    obtain ⟨s,hs,hlo,hle,hhi,hrest⟩ := h
    obtain ⟨s',hs',hlo',hbody⟩ := ih hrest hmem
    exact ⟨s',hs',by omega,hbody⟩
  | block header inner rest _ ih =>
    obtain ⟨s,hs,hlo,hle,hhi,hbody,hempty,hrest⟩ := h
    rcases List.mem_cons.mp hmem with rfl | hmem
    · exact ⟨s,hs,hlo,hhi,hbody,hempty⟩
    · obtain ⟨s',hs',hlo',hbody'⟩ := ih hrest hmem
      exact ⟨s',hs',by omega,hbody'⟩

theorem Placed.stands (h : Placed lo hi body) (hmem : block ∈ body.blocks)
    (hspan : spanContainsOffset block.1.span offset = true) : Stands offset block body := by
  induction body generalizing lo with
  | nil => cases hmem
  | «attribute» attr rest ih =>
    obtain ⟨s,hs,-,-,-,hrest⟩ := h
    obtain ⟨s',hs',hlo',-⟩ := hrest.blockSpan hmem
    have hcontains := hspan
    rw [hs',spanContainsOffset_some] at hcontains
    exact .behindAttribute (not_contains_of_gt hs (by omega)) (ih hrest hmem)
  | block header inner rest _ ih =>
    obtain ⟨s,hs,-,-,-,hbody,-,hrest⟩ := h
    rcases List.mem_cons.mp hmem with rfl | hmem
    · refine .here hspan (hrest.clear_of_lt ?_)
      rw [hs,spanContainsOffset_some] at hspan
      omega
    · obtain ⟨s',hs',hlo',-⟩ := hrest.blockSpan hmem
      have hcontains := hspan
      rw [hs',spanContainsOffset_some] at hcontains
      have hnot : spanContainsOffset header.span offset = false := not_contains_of_gt hs (by omega)
      exact .behindBlock hnot (not_in_body hs (fun r hr => ⟨(hbody r hr).1.le,(hbody r hr).2.1⟩) hnot)
        (ih hrest hmem)

theorem Placed.atKey (h : Placed lo hi body) (hmem : attr ∈ body.attributes)
    (hspan : spanContainsOffset attr.keySpan offset = true) : AtKey offset attr body := by
  induction body generalizing lo with
  | nil => cases hmem
  | «attribute» attr' rest ih =>
    obtain ⟨s,hs,-,-,-,hrest⟩ := h
    rcases List.mem_cons.mp hmem with rfl | hmem
    · refine .here hspan (hrest.clear_of_lt ?_)
      rw [hs,spanContainsOffset_some] at hspan
      omega
    · obtain ⟨s',hs',hlo',-⟩ := hrest.keySpan hmem
      have hcontains := hspan
      rw [hs',spanContainsOffset_some] at hcontains
      exact .behindAttribute (not_contains_of_gt hs (by omega)) (ih hrest hmem)
  | block header inner rest _ ih =>
    obtain ⟨s,hs,-,-,-,hbody,-,hrest⟩ := h
    obtain ⟨s',hs',hlo',-⟩ := hrest.keySpan hmem
    have hcontains := hspan
    rw [hs',spanContainsOffset_some] at hcontains
    have hnot : spanContainsOffset header.span offset = false := not_contains_of_gt hs (by omega)
    exact .behindBlock hnot (not_in_body hs (fun r hr => ⟨(hbody r hr).1.le,(hbody r hr).2.1⟩) hnot)
      (ih hrest hmem)

theorem Reaches.ne_nil (hreach : Reaches attr body blocks) : body ≠ .nil := by
  rintro rfl
  cases hreach with
  | here hmem => cases hmem
  | inside hmem hrest => cases hmem

theorem Reaches.keySpan (hreach : Reaches attr body blocks) (h : Placed lo hi body) :
    ∃ s, attr.keySpan = some s ∧ lo ≤ s.1 ∧ s.2 ≤ hi := by
  induction hreach generalizing lo hi with
  | here hmem => exact h.keySpan hmem
  | inside hmem hrest ih =>
    obtain ⟨s,hs,hlo,hhi,hbody,hempty⟩ := h.blockSpan hmem
    obtain ⟨r,hr⟩ := Option.ne_none_iff_exists'.mp (mt hempty hrest.ne_nil)
    obtain ⟨hsr,hrs,-,hinner⟩ := hbody r hr
    obtain ⟨k,hk,hlok,hhik⟩ := ih hinner
    exact ⟨k,hk,by omega,by omega⟩

/-- The cursor is on a key below the block: behind its header, and in its body unless it is
just behind the brace. -/
structure Around (offset : ℕ) (block : Block) (r : Span) : Prop where
  bodySpan : block.1.bodySpan = some r
  placed : Placed r.1 r.2 block.2
  start : r.1 ≤ offset
  header : HeaderBefore block.1 r.1
  span : spanContainsOffset block.1.span offset = true
  body : cursorInBlockBody block.1 offset = decide (r.1 < offset)

theorem Reaches.around (hreach : Reaches attr block.2 blocks) (h : Placed lo hi body)
    (hmem : block ∈ body.blocks) (hkey : spanContainsOffset attr.keySpan offset = true) :
    ∃ r, Around offset block r := by
  obtain ⟨s,hs,hlo,hhi,hbody,hempty⟩ := h.blockSpan hmem
  obtain ⟨r,hr⟩ := Option.ne_none_iff_exists'.mp (mt hempty hreach.ne_nil)
  obtain ⟨hsr,hrs,hheader,hinner⟩ := hbody r hr
  obtain ⟨k,hk,hlok,hhik⟩ := hreach.keySpan hinner
  rw [hk,spanContainsOffset_some] at hkey
  refine ⟨r,hr,hinner,by omega,hheader,?_,?_⟩
  · rw [hs,spanContainsOffset_some]
    omega
  · rw [cursorInBlockBody,hr]
    have hle : offset ≤ r.2 := by omega
    simp [hle]

/-! ### The walks where no structure is at the cursor -/

/-- No body of a block is around the cursor. -/
def Stops (offset : ℕ) (body : Body) : Prop :=
  ∀ block ∈ body.blocks, cursorInBlockBody block.1 offset = false

/-- A walk that passes over attributes and stops at such a block, or passes over it, finds
nothing. -/
theorem Stops.passed {α : Type} {w : Body → α}
    (hattr : ∀ attr rest, w (.attribute attr rest) = w rest)
    (hblock : ∀ header inner rest, cursorInBlockBody header offset = false →
      w (.block header inner rest) = w .nil ∨ w (.block header inner rest) = w rest)
    (h : Stops offset body) : w body = w .nil := by
  induction body with
  | nil => rfl
  | «attribute» attr rest ih => exact (hattr attr rest).trans (ih h)
  | block header inner rest _ ih =>
    obtain ⟨hheader,hrest⟩ := List.forall_mem_cons.mp h
    exact (hblock header inner rest hheader).elim id fun hpassed => hpassed.trans (ih hrest)

theorem Stops.innermost (h : Stops offset body) : innermostBlockAt offset body = none := by
  refine h.passed (fun _ _ => rfl) fun header inner rest hheader => ?_
  cases hspan : spanContainsOffset header.span offset with
  | true => exact .inl (by simp [innermostBlockAt,hspan,hheader])
  | false => exact .inr (by simp [innermostBlockAt,hspan])

theorem Stops.innermostContent (h : Stops offset body) : innermostContent offset body = none :=
  h.passed (fun _ _ => rfl) fun header inner rest hheader => .inr (by
    simp [BodyCursors.innermostContent,hheader])

theorem Stops.collect (h : Stops offset body) : collectNestedPath offset body = [] := by
  refine h.passed (fun _ _ => rfl) fun header inner rest hheader => ?_
  cases hspan : spanContainsOffset header.span offset with
  | true => exact .inl (by simp [collectNestedPath,hspan,hheader])
  | false => exact .inr (by simp [collectNestedPath,hspan])

theorem Stops.collectContent (h : Stops offset body) : collectContentPath offset body = [] :=
  h.passed (fun _ _ => rfl) fun header inner rest hheader => .inr (by
    simp [collectContentPath,hheader])

theorem Stops.nestedBlockPath (h : Stops offset body) : nestedBlockPath offset body = [] :=
  h.passed (fun _ _ => rfl) fun header inner rest hheader => .inr (by
    simp [BodyCursors.nestedBlockPath,hheader])

section hovers

variable {root : Root} {target : String} {path : List String}

/-- A walk that passes over keys and blocks without the cursor comes to the end. -/
theorem Clear.passed {α : Type} {w : Body → α}
    (hattr : ∀ attr rest, spanContainsOffset attr.keySpan offset = false →
      w (.attribute attr rest) = w rest)
    (hblock : ∀ header inner rest, spanContainsOffset header.span offset = false →
      w (.block header inner rest) = w rest)
    (h : Clear offset body) : w body = w .nil := by
  induction body with
  | nil => rfl
  | «attribute» attr rest ih =>
    obtain ⟨hnot,hrest⟩ := List.forall_mem_cons.mp h.attributes
    exact (hattr attr rest hnot).trans (ih ⟨hrest,h.blocks,h.bodies⟩)
  | block header inner rest _ ih =>
    obtain ⟨hnot,hrest⟩ := List.forall_mem_cons.mp h.blocks
    exact (hblock header inner rest hnot).trans
      (ih ⟨h.attributes,hrest,(List.forall_mem_cons.mp h.bodies).2⟩)

theorem Clear.scanBlock (h : Clear offset body) : scanBlock root offset body path = none :=
  h.passed (w:=fun body => BodyCursors.scanBlock root offset body path)
    (fun attr rest hattr => by simp [BodyCursors.scanBlock,hattr])
    fun header inner rest hheader => by simp [BodyCursors.scanBlock,hheader]

theorem Clear.scanDynamicBody (h : Clear offset body) :
    scanDynamicBody root offset target body path = none :=
  h.passed (w:=fun body => BodyCursors.scanDynamicBody root offset target body path)
    (fun attr rest hattr => by simp [BodyCursors.scanDynamicBody,hattr])
    fun header inner rest hheader => by simp [BodyCursors.scanDynamicBody,hheader]

theorem Clear.findHit (h : Clear offset body) : findHit offset body = none :=
  h.passed (fun _ _ _ => rfl) fun header inner rest hheader => by
    rw [BodyCursors.findHit,hheader]
    cases rootOf header <;> rfl

end hovers

/-! ### The walk of completion through the block at the cursor -/

theorem AtKey.stops (h : AtKey offset attr body) : Stops offset body := by
  induction h with
  | here _ hrest => exact hrest.bodies
  | behindAttribute _ _ ih => exact ih
  | behindBlock _ hbody _ ih => exact List.forall_mem_cons.mpr ⟨hbody,ih⟩

theorem Stands.stops (h : Stands offset block body) (hbody : cursorInBlockBody block.1 offset = false) :
    Stops offset body := by
  induction h with
  | here _ hrest => exact List.forall_mem_cons.mpr ⟨hbody,hrest.bodies⟩
  | behindAttribute _ _ ih => exact ih
  | behindBlock _ hbefore _ ih => exact List.forall_mem_cons.mpr ⟨hbefore,ih⟩

theorem Stands.innermost (h : Stands offset block body) (hbody : cursorInBlockBody block.1 offset = true) :
    innermostBlockAt offset body =
      if block.1.ident = "dynamic" then (innermostContent offset block.2).or
        (some ((innermostBlockAt offset block.2).getD block))
      else some ((innermostBlockAt offset block.2).getD block) := by
  induction h with
  | here hspan _ =>
    rw [innermostBlockAt,hspan,hbody]
    rfl
  | behindAttribute _ _ ih => exact ih
  | behindBlock hspan _ _ ih =>
    rw [innermostBlockAt,hspan]
    exact ih

theorem Stands.innermostContent (h : Stands offset block body) :
    innermostContent offset body =
      if block.1.ident = "content" && cursorInBlockBody block.1 offset then
        some ((innermostBlockAt offset block.2).getD block)
      else none := by
  induction h with
  | here _ hrest =>
    rw [BodyCursors.innermostContent,Stops.innermostContent hrest.bodies]
  | behindAttribute _ _ ih => exact ih
  | behindBlock _ hbody _ ih =>
    rw [BodyCursors.innermostContent,hbody,Bool.and_false]
    exact ih

/-- The look through `content` finds what the walk finds without it. -/
theorem innermostContent_or (h : Stops offset body ∨ ∃ inner, Stands offset inner body) :
    (innermostContent offset body).or (some ((innermostBlockAt offset body).getD block)) =
      some ((innermostBlockAt offset body).getD block) := by
  rcases h with h | ⟨inner,h⟩
  · rw [h.innermostContent,Option.none_or]
  · rw [h.innermostContent]
    split_ifs with hcontent
    · rw [Bool.and_eq_true,decide_eq_true_eq] at hcontent
      rw [h.innermost hcontent.2,if_neg (by rw [hcontent.1]; decide)]
      rfl
    · rfl

/-- The walk of completion goes down through the blocks. -/
inductive Descends (offset : ℕ) : Body → List Block → Prop
  | here {body : Body} (hstops : Stops offset body) : Descends offset body []
  | inside {body : Body} {block : Block} {blocks : List Block} (hstands : Stands offset block body)
      (hbody : cursorInBlockBody block.1 offset = true) (hrest : Descends offset block.2 blocks) :
      Descends offset body (block::blocks)

theorem Descends.innermost (h : Descends offset body blocks) :
    innermostBlockAt offset body = blocks.getLast? := by
  induction h with
  | here hstops => exact hstops.innermost
  | inside hstands hbody hrest ih =>
    have hinner : ∀ {b bs}, Descends offset b bs → Stops offset b ∨ ∃ inner, Stands offset inner b := by
      intro b bs hb
      cases hb with
      | here hstops => exact Or.inl hstops
      | inside hstands _ _ => exact Or.inr ⟨_,hstands⟩
    rw [hstands.innermost hbody,innermostContent_or (hinner hrest),ite_self,ih,List.getLast?_cons]

theorem Stands.collect (h : Stands offset block body) (hbody : cursorInBlockBody block.1 offset = true)
    (hplain : block.1.ident ≠ "dynamic") :
    collectNestedPath offset body = block.1.ident :: collectNestedPath offset block.2 := by
  induction h with
  | here hspan _ =>
    rw [collectNestedPath,hspan,hbody,if_neg (by decide),if_neg (by decide),if_neg hplain]
  | behindAttribute _ _ ih => exact ih
  | behindBlock hspan _ _ ih =>
    rw [collectNestedPath,hspan]
    exact ih

theorem Stands.collect_dynamic (h : Stands offset block body)
    (hbody : cursorInBlockBody block.1 offset = true) (hdynamic : block.1.ident = "dynamic")
    (hlabels : block.1.labels ≠ []) :
    collectNestedPath offset body = labelText block.1 :: collectContentPath offset block.2 := by
  induction h with
  | here hspan _ =>
    obtain ⟨label,labels,hlabel⟩ := List.exists_cons_of_ne_nil hlabels
    rw [collectNestedPath,hspan,hbody,if_neg (by decide),if_neg (by decide),if_pos hdynamic,
      labelText,hlabel]
    rfl
  | behindAttribute _ _ ih => exact ih
  | behindBlock hspan _ _ ih =>
    rw [collectNestedPath,hspan]
    exact ih

theorem Stands.collectContent (h : Stands offset block body)
    (hbody : cursorInBlockBody block.1 offset = true) (hcontent : block.1.ident = "content") :
    collectContentPath offset body = collectNestedPath offset block.2 := by
  induction h with
  | here _ _ =>
    rw [collectContentPath,hbody,if_pos (by simp [hcontent])]
  | behindAttribute _ _ ih => exact ih
  | behindBlock _ hbefore _ ih =>
    rw [collectContentPath,hbefore,Bool.and_false]
    exact ih

theorem Stands.nestedBlockPath (h : Stands offset block body)
    (hbody : cursorInBlockBody block.1 offset = true) :
    nestedBlockPath offset body = collectNestedPath offset block.2 := by
  induction h with
  | here hspan _ =>
    rw [BodyCursors.nestedBlockPath,hspan,hbody]
    rfl
  | behindAttribute _ _ ih => exact ih
  | behindBlock hspan _ _ ih =>
    rw [BodyCursors.nestedBlockPath,hspan]
    exact ih

theorem Descends.collect (h : Descends offset body blocks) :
    (Regular blocks → collectNestedPath offset body = schemaPath blocks) ∧
      (RegularContent blocks → collectContentPath offset body = contentPath blocks) := by
  induction h with
  | here hstops => exact ⟨fun _ => hstops.collect,fun _ => hstops.collectContent⟩
  | inside hstands hbody hrest ih =>
    constructor
    · intro hregular
      rw [Regular] at hregular
      rw [schemaPath]
      split_ifs at hregular ⊢ with hdynamic
      · rw [hstands.collect_dynamic hbody hdynamic hregular.1,ih.2 hregular.2]
      · rw [hstands.collect hbody hdynamic,ih.1 hregular]
    · intro hregular
      rw [hstands.collectContent hbody hregular.1,ih.1 hregular.2]
      rfl

/-! ### The walk of hovers through the block at the cursor -/

section hovers

variable {root : Root} {target : String} {path : List String}

/-- A cursor in the body of a block is not on its header. -/
theorem HeaderBefore.ident {header : Header} {n : ℕ} (h : HeaderBefore header n) (hle : n ≤ offset) :
    spanContainsOffset header.identSpan offset = false := by
  cases hspan : header.identSpan with
  | none => rfl
  | some span => exact not_contains_of_gt rfl (by have hlt := h.1 span hspan; omega)

theorem headerHit_eq_none {header : Header} {targetLabel : Option String}
    (h : spanContainsOffset header.identSpan offset = false) :
    headerHit root offset header path targetLabel = none := by
  rw [headerHit,h]
  rfl

theorem Around.scanDynamicBlock {r : Span} (h : Around offset block r) (scanBody : String → Option Hit) :
    scanDynamicBlock root offset block.1 path scanBody =
      if block.1.labels = [] then none else scanBody (labelText block.1) := by
  rw [BodyCursors.scanDynamicBlock,headerHit_eq_none (h.header.ident h.start),Option.none_or,labelText]
  cases hlabels : block.1.labels with
  | nil => rfl
  | cons label labels =>
    rw [if_neg (List.cons_ne_nil _ _)]
    have hspan : (label.2.filter fun s => spanContainsOffset (some s) offset) = none := by
      rw [Option.filter_eq_none_iff]
      intro span hspan
      have hlt := h.header.2 label (by rw [hlabels]; exact List.mem_cons_self) span hspan
      have hstart := h.start
      rw [not_contains_of_gt rfl (by omega)]
      decide
    simp only [List.head?_cons,Option.bind_some,hspan]
    rfl

theorem Stands.scanBlock {r : Span} (h : Stands offset block body) (haround : Around offset block r) :
    scanBlock root offset body path =
      if block.1.ident = "dynamic" then
        if block.1.labels = [] then none
        else scanDynamicBody root offset (labelText block.1) block.2 (path ++ [labelText block.1])
      else BodyCursors.scanBlock root offset block.2 (path ++ [block.1.ident]) := by
  induction h with
  | here hspan hrest =>
    rw [BodyCursors.scanBlock,hspan,haround.scanDynamicBlock,
      headerHit_eq_none (haround.header.ident haround.start),hrest.scanBlock,Option.none_or,Option.or_none]
    rfl
  | behindAttribute hspan _ ih =>
    rw [BodyCursors.scanBlock,hspan]
    exact ih
  | behindBlock hspan _ _ ih =>
    rw [BodyCursors.scanBlock,hspan]
    exact ih

theorem Stands.scanDynamicBody {r : Span} (h : Stands offset block body)
    (haround : Around offset block r) :
    scanDynamicBody root offset target body path =
      if block.1.ident = "content" then BodyCursors.scanBlock root offset block.2 path else none := by
  induction h with
  | here hspan hrest =>
    rw [BodyCursors.scanDynamicBody,hspan,headerHit_eq_none (haround.header.ident haround.start),
      hrest.scanDynamicBody,Option.none_or]
    rfl
  | behindAttribute hspan _ ih =>
    rw [BodyCursors.scanDynamicBody,hspan]
    exact ih
  | behindBlock hspan _ _ ih =>
    rw [BodyCursors.scanDynamicBody,hspan]
    exact ih

theorem Stands.findHit (h : Stands offset block body) :
    findHit offset body = (rootOf block.1).bind fun root =>
      BodyCursors.scanBlock root offset block.2 [] := by
  induction h with
  | here hspan hrest =>
    rw [BodyCursors.findHit,hspan,hrest.findHit]
    cases rootOf block.1 with
    | none => rfl
    | some root => exact Option.or_none
  | behindAttribute _ _ ih => exact ih
  | @behindBlock header _ _ hspan _ _ ih =>
    rw [BodyCursors.findHit,hspan]
    cases rootOf header with
    | none => exact ih
    | some root => exact ih

theorem AtKey.scanBlock (h : AtKey offset attr body) :
    scanBlock root offset body path = attr.keySpan.map (.attribute root path attr.key) := by
  induction h with
  | here hspan _ =>
    rw [BodyCursors.scanBlock,hspan]
    rfl
  | behindAttribute hspan _ ih =>
    rw [BodyCursors.scanBlock,hspan]
    exact ih
  | behindBlock hspan _ _ ih =>
    rw [BodyCursors.scanBlock,hspan]
    exact ih

theorem AtKey.scanDynamicBody (h : AtKey offset attr body) :
    scanDynamicBody root offset target body path = attr.keySpan.map fun keySpan =>
      if isDynamicMetaAttr attr.key then .dynamicMetaAttr target attr.key keySpan
      else .attribute root path attr.key keySpan := by
  induction h with
  | here hspan _ =>
    rw [BodyCursors.scanDynamicBody,hspan]
    rfl
  | behindAttribute hspan _ ih =>
    rw [BodyCursors.scanDynamicBody,hspan]
    exact ih
  | behindBlock hspan _ _ ih =>
    rw [BodyCursors.scanDynamicBody,hspan]
    exact ih

/-- The walk finds the key with its path, or nothing where it does not look. -/
theorem Reaches.scan (hreach : Reaches attr body blocks) (h : Placed lo hi body)
    (hkey : spanContainsOffset attr.keySpan offset = true) :
    (∀ path, (Regular blocks → ∃ hit, scanBlock root offset body path = some hit ∧
        hit.HasPath (path ++ schemaPath blocks)) ∧
      (¬Regular blocks → scanBlock root offset body path = none)) ∧
    ∀ path target, path.getLast? = some target →
      (RegularContent blocks → ∃ hit, scanDynamicBody root offset target body path = some hit ∧
        hit.HasPath (path ++ contentPath blocks)) ∧
      (¬RegularContent blocks → scanDynamicBody root offset target body path = none) := by
  induction hreach generalizing lo hi with
  | here hmem =>
    obtain ⟨s,hs⟩ : ∃ s, attr.keySpan = some s := by
      obtain ⟨s,hs,-⟩ := h.keySpan hmem
      exact ⟨s,hs⟩
    have hat := h.atKey hmem hkey
    constructor
    · intro path
      refine ⟨fun _ => ⟨_,hat.scanBlock.trans (by rw [hs]; rfl),?_⟩,fun hnot => absurd trivial hnot⟩
      exact (List.append_nil path).symm
    · intro path target htarget
      refine ⟨fun _ => ⟨_,hat.scanDynamicBody.trans (by rw [hs]; rfl),?_⟩,
        fun hnot => absurd trivial hnot⟩
      rw [contentPath,List.append_nil]
      split_ifs
      · exact htarget
      · exact rfl
  | @inside body block blocks hmem hrest ih =>
    obtain ⟨r,haround⟩ := hrest.around h hmem hkey
    have hstands := h.stands hmem haround.span
    obtain ⟨hplain,hdynamic⟩ := ih haround.placed
    constructor
    · intro path
      rw [hstands.scanBlock haround,Regular,schemaPath]
      split_ifs with hident hlabels
      · exact ⟨fun hregular => absurd hlabels hregular.1,fun _ => rfl⟩
      · have hcontent := hdynamic (path ++ [labelText block.1]) (labelText block.1) (by simp)
        refine ⟨fun hregular => ?_,fun hregular => hcontent.2 fun hc => hregular ⟨hlabels,hc⟩⟩
        obtain ⟨hit,hhit,hpath⟩ := hcontent.1 hregular.2
        rw [List.append_assoc] at hpath
        exact ⟨hit,hhit,hpath⟩
      · have hinner := hplain (path ++ [block.1.ident])
        rw [List.append_assoc] at hinner
        exact hinner
    · intro path target _
      rw [hstands.scanDynamicBody haround,RegularContent,contentPath]
      split_ifs with hident
      · rw [and_iff_right hident]
        exact hplain path
      · exact ⟨fun hregular => absurd hregular.1 hident,fun _ => rfl⟩

end hovers

/-! ### Down to the key, or to the block before it -/

/-- A block with another one on the way has the cursor in its body. -/
theorem Around.in_body {r : Span} (haround : Around offset block r) {next : Block}
    (hmem : next ∈ block.2.blocks) {r' : Span} (hnext : Around offset next r') :
    cursorInBlockBody block.1 offset = true := by
  obtain ⟨s,-,hlo,-,hbody,-⟩ := haround.placed.blockSpan hmem
  have hlt := (hbody r' hnext.bodySpan).1
  have hstart := hnext.start
  rw [haround.body,decide_eq_true_eq]
  omega

theorem Reaches.descends (hreach : Reaches attr body blocks) (h : Placed lo hi body)
    (hkey : spanContainsOffset attr.keySpan offset = true)
    (hbehind : ∀ last ∈ blocks.getLast?, BehindBrace offset last) : Descends offset body blocks := by
  induction hreach generalizing lo hi with
  | here hmem => exact .here (h.atKey hmem hkey).stops
  | @inside body block blocks hmem hrest ih =>
    obtain ⟨r,haround⟩ := hrest.around h hmem hkey
    refine .inside (h.stands hmem haround.span) ?_ (ih haround.placed fun last hlast => hbehind last ?_)
    · cases hrest with
      | here _ =>
        rw [haround.body,decide_eq_true_eq]
        exact hbehind block rfl r haround.bodySpan
      | inside hmem' hrest' =>
        obtain ⟨r',haround'⟩ := hrest'.around haround.placed hmem' hkey
        exact haround.in_body hmem' haround'
    · rw [Option.mem_def] at hlast ⊢
      rw [List.getLast?_cons,hlast]
      rfl

theorem Reaches.descends_dropLast (hreach : Reaches attr body blocks) (h : Placed lo hi body)
    (hkey : spanContainsOffset attr.keySpan offset = true) {last : Block}
    (hlast : blocks.getLast? = some last) (hbehind : ¬BehindBrace offset last) :
    Descends offset body blocks.dropLast := by
  induction hreach generalizing lo hi with
  | here hmem => cases hlast
  | @inside body block blocks hmem hrest ih =>
    obtain ⟨r,haround⟩ := hrest.around h hmem hkey
    have hstands := h.stands hmem haround.span
    cases hrest with
    | here _ =>
      obtain rfl := Option.some.inj hlast
      refine .here (hstands.stops ?_)
      rw [haround.body,decide_eq_false_iff_not]
      intro hlt
      refine hbehind fun r' hr' => ?_
      rwa [Option.some.inj (hr'.symm.trans haround.bodySpan)]
    | inside hmem' hrest' =>
      obtain ⟨r',haround'⟩ := hrest'.around haround.placed hmem' hkey
      exact .inside hstands (haround.in_body hmem' haround')
        (ih haround.placed (by rwa [List.getLast?_cons_cons] at hlast))

/-- Only the `content` of a dynamic block adds nothing to the path. -/
theorem content_of_schemaPath_dropLast : ∀ blocks : List Block,
    (∀ last, blocks.getLast? = some last → Regular blocks →
      schemaPath blocks.dropLast = schemaPath blocks → last.1.ident = "content" ∧
        ∃ dynamic, blocks.dropLast.getLast? = some dynamic ∧ dynamic.1.ident = "dynamic") ∧
    ∀ last, blocks.getLast? = some last → RegularContent blocks →
      contentPath blocks.dropLast = contentPath blocks → last.1.ident = "content" ∧
        (blocks.dropLast = [] ∨
          ∃ dynamic, blocks.dropLast.getLast? = some dynamic ∧ dynamic.1.ident = "dynamic")
  | [] => ⟨nofun,nofun⟩
  | [block] => by
    constructor
    · intro last _ _ hpath
      rw [List.dropLast_singleton,schemaPath,schemaPath] at hpath
      split_ifs at hpath
    · intro last hlast hregular _
      obtain rfl := Option.some.inj hlast
      exact ⟨hregular.1,Or.inl rfl⟩
  | block::next::blocks => by
    obtain ⟨hplain,hcontent⟩ := content_of_schemaPath_dropLast (next::blocks)
    constructor
    · intro last hlast hregular hpath
      rw [List.getLast?_cons_cons] at hlast
      rw [List.dropLast_cons_cons,schemaPath,schemaPath] at hpath
      rw [Regular] at hregular
      rw [List.dropLast_cons_cons,List.getLast?_cons]
      split_ifs at hregular hpath with hident
      · obtain ⟨hlast',hdynamic⟩ := hcontent last hlast hregular.2 (List.cons.inj hpath).2
        refine ⟨hlast',?_⟩
        rcases hdynamic with hnil | ⟨dynamic,hdynamic,hdynamic'⟩
        · rw [hnil]
          exact ⟨block,rfl,hident⟩
        · rw [hdynamic]
          exact ⟨dynamic,rfl,hdynamic'⟩
      · obtain ⟨hlast',dynamic,hdynamic,hdynamic'⟩ :=
          hplain last hlast hregular (List.cons.inj hpath).2
        rw [hdynamic]
        exact ⟨hlast',dynamic,rfl,hdynamic'⟩
    · intro last hlast hregular hpath
      rw [List.getLast?_cons_cons] at hlast
      rw [List.dropLast_cons_cons,contentPath,contentPath] at hpath
      obtain ⟨hlast',dynamic,hdynamic,hdynamic'⟩ := hplain last hlast hregular.2 hpath
      refine ⟨hlast',Or.inr ?_⟩
      rw [List.dropLast_cons_cons,List.getLast?_cons,hdynamic]
      exact ⟨dynamic,rfl,hdynamic'⟩

theorem Regular.dropLast : ∀ {blocks : List Block},
    (Regular blocks → Regular blocks.dropLast) ∧ (RegularContent blocks → RegularContent blocks.dropLast)
  | [] => ⟨id,id⟩
  | [_] => ⟨fun _ => trivial,fun _ => trivial⟩
  | block::next::blocks => by
    obtain ⟨hplain,hcontent⟩ := @Regular.dropLast (next::blocks)
    rw [List.dropLast_cons_cons]
    constructor
    · intro hregular
      rw [Regular] at hregular ⊢
      split_ifs at hregular ⊢
      · exact ⟨hregular.1,hcontent hregular.2⟩
      · exact hplain hregular
    · exact fun hregular => ⟨hregular.1,hplain hregular.2⟩

/-! ### The filter -/

theorem mem_extend_presentAttrs (out : BodyFilter) (body : Body) (name : String) :
    name ∈ (out.extend body).presentAttrs ↔
      name ∈ out.presentAttrs ∨ name ∈ body.attributes.map Attribute.key := by
  induction body generalizing out with
  | nil => simp [BodyFilter.extend,Body.attributes]
  | «attribute» attr rest ih =>
    rw [BodyFilter.extend,ih,Body.attributes,List.map_cons,List.mem_cons,Finset.mem_insert,or_assoc,
      or_left_comm]
  | block header inner rest _ ih => exact ih _

theorem extend_presentBlocks (out : BodyFilter) (body : Body) (name : String) :
    (out.extend body).presentBlocks name =
      out.presentBlocks name + (body.blocks.map fun block => block.1.ident).count name := by
  induction body generalizing out with
  | nil => rfl
  | «attribute» attr rest ih => exact ih _
  | block header inner rest _ ih =>
    rw [BodyFilter.extend,ih,Body.blocks,List.map_cons,List.count_cons]
    by_cases hname : header.ident = name
    · subst hname
      simp only [Function.update_self,beq_self_eq_true,if_true]
      omega
    · simp [Function.update_of_ne (Ne.symm hname),hname]

theorem extend_lists (body : Body) : (BodyFilter.default.extend body).Lists body := by
  refine ⟨fun name => ?_,fun name => ?_⟩
  · rw [mem_extend_presentAttrs]
    simp [BodyFilter.default]
  · rw [extend_presentBlocks,BodyFilter.default,Nat.zero_add]

end lemmas

section theorems

variable {hi offset : ℕ} {rope : Rope} {pos : Position} {body : Body} {block : Block}
  {blocks : List Block} {attr : Attribute}

/-- The blocks of resources and data sources are known by their first label. -/
theorem rootOf_eq {header : Header} (hkind : header.ident = "resource" ∨ header.ident = "data") :
    rootOf header = header.labels.head?.map fun label =>
      ⟨if header.ident = "resource" then .resource else .dataSource,label.1.asStr⟩ := by
  rcases hkind with hkind | hkind
  · have hroot : rootKind header.ident = some .resource := by rw [hkind]; decide
    rw [rootOf,hroot,hkind,Option.bind_some,typeLabel,if_neg (by decide),Option.map_map]
    rfl
  · have hroot : rootKind header.ident = some .dataSource := by rw [hkind]; decide
    rw [rootOf,hroot,hkind,Option.bind_some,typeLabel,if_neg (by decide),Option.map_map]
    rfl

/-- Just behind the brace of the block of the key, completion looks at the body around it. -/
theorem not_agree_of_not_behind (h : Placed 0 hi body) (hmem : block ∈ body.blocks)
    (hreach : Reaches attr block.2 blocks) (hkey : spanContainsOffset attr.keySpan offset = true)
    (hregular : Regular blocks) (hbehind : ¬BehindBrace offset (blocks.getLast?.getD block)) :
    ¬Agree rope body pos offset block blocks := by
  intro hagree
  have hdescends := (Reaches.inside hmem hreach).descends_dropLast h hkey
    List.getLast?_cons hbehind
  cases hreach with
  | here hattr =>
    have hfilter := (hagree.filter.1 attr.key).mpr (List.mem_map_of_mem hattr)
    rw [computeBodyFilter,Option.bind_some,hdescends.innermost] at hfilter
    exact absurd hfilter (Finset.notMem_empty _)
  | @inside _ next blocks hnext hrest =>
    rw [List.dropLast_cons_cons] at hdescends
    have hinnermost := hdescends.innermost
    cases hdescends with
    | inside hstands hbody hdown =>
      have hpath := hagree.path
      rw [hstands.nestedBlockPath hbody,hdown.collect.1 (Regular.dropLast.1 hregular)] at hpath
      have hlast : (next::blocks).getLast? = some ((next::blocks).getLast?.getD block) := by
        rw [List.getLast?_cons]
        rfl
      obtain ⟨hcontent,dynamic,hdynamic,hident⟩ :=
        (content_of_schemaPath_dropLast (next::blocks)).1 _ hlast hregular hpath
      rw [List.getLast?_cons,hdynamic] at hinnermost
      have hcursor : cursorOnDynamicBody offset (some body) = true := by
        rw [cursorOnDynamicBody,Option.bind_some,hinnermost]
        exact decide_eq_true hident
      rw [hagree.dynamic.mp hcursor] at hcontent
      exact absurd hcontent (by decide)

/-- The text `resource "t" "n" {`, `dynamic "x" {`, `content {`, `a = 1` and the braces, each in
a line of its own. -/
def dynamicRope : Rope :=
  ("resource \"t\" \"n\" \x7b\n  dynamic \"x\" \x7b\n    content \x7b\n      a = 1\n    \x7d\n  \x7d\n" ++
    "\x7d\n").toList

def keyA : Attribute := ⟨"a",some (55,56)⟩

def dynamicInner : List Block :=
  [(⟨"dynamic",some (21,28),[(.string "x",some (29,32))],some (21,70),some (34,69)⟩,
      .block ⟨"content",some (39,46),[],some (39,66),some (48,65)⟩ (.attribute keyA .nil) .nil),
    (⟨"content",some (39,46),[],some (39,66),some (48,65)⟩,.attribute keyA .nil)]

def dynamicBlock : Block :=
  (⟨"resource",some (0,8),[(.string "t",some (9,12)),(.string "n",some (13,16))],some (0,72),
      some (18,71)⟩,
    .block ⟨"dynamic",some (21,28),[(.string "x",some (29,32))],some (21,70),some (34,69)⟩
      (.block ⟨"content",some (39,46),[],some (39,66),some (48,65)⟩ (.attribute keyA .nil) .nil) .nil)

def dynamicBody : Body := .block dynamicBlock.1 dynamicBlock.2 .nil

/-- The text `resource "t" "n" {`, `foo {a=1}` and the brace, each in a line of its own. -/
def adjacentRope : Rope := "resource \"t\" \"n\" \x7b\n  foo \x7ba=1\x7d\n\x7d\n".toList

def adjacentKey : Attribute := ⟨"a",some (26,27)⟩

def adjacentInner : Block := (⟨"foo",some (21,24),[],some (21,30),some (26,29)⟩,.attribute adjacentKey .nil)

def adjacentBlock : Block :=
  (⟨"resource",some (0,8),[(.string "t",some (9,12)),(.string "n",some (13,16))],some (0,32),
    some (18,31)⟩,.block adjacentInner.1 adjacentInner.2 .nil)

def adjacentBody : Body := .block adjacentBlock.1 adjacentBlock.2 .nil

end theorems

end BodyCursors
end TerraformLs
