import CodeFormatter.Proofs.JavaScript.Ranges
import CodeFormatter.Proofs.JavaScript.Residence
import CodeFormatter.Proofs.Layout.Cursor
import CodeFormatter.Proofs.Range

/-!
# Where the cursor goes

The cursor of a text belongs to the node around it, whose document is printed between two cursors. From
where these stand in the output follows where the cursor goes. A node that is copied from the source
takes all nodes in it along, without a cursor anywhere, and at the start of a name the search may end at
the node in front of it. Then the cursor is lost, or goes elsewhere (`not_tracked`).

**Theorem (`formatWithCursor_identifier`).** If all nodes around a name are laid out, and no other node
stops where the cursor is, then the cursor stays in the name.
-/

namespace CodeFormatter.JavaScript

open Layout Pipeline Printer CodeFormatter.Tree Walk

variable {done : Comments} {scene : Scene} {root t v : Node} {x : String} {children : List Child}

/-! ## Nodes that are laid out -/

/-- The node is laid out, and not copied from the source. -/
structure HasLayout (done : Comments) (scene : Scene) (t : Node) : Prop where
  wanted : ignored done t = false
  dangling : done.hasPlacement t.id .dangling = true → printsDangling (kindOf t) = true
  layout : ∀ ancestors children, nodesOf children = t.children → ∀ st answer st',
    node scene ⟨t, ancestors⟩ children st = .ok (answer, st') → answer ≠ none

theorem hasLayout_of_some (hwanted : ignored done t = false)
    (hdangling : done.hasPlacement t.id .dangling = true → printsDangling (kindOf t) = true)
    (hnode : ∀ ancestors children, nodesOf children = t.children →
      ∃ x : Walk Doc, node scene ⟨t, ancestors⟩ children = some <$> x) : HasLayout done scene t := by
  refine ⟨hwanted, hdangling, fun ancestors children hnodes st answer st' hrun => ?_⟩
  obtain ⟨x, hx⟩ := hnode ancestors children hnodes
  rw [hx] at hrun
  obtain ⟨d, -, rfl⟩ := Walk.map_eq_ok.mp hrun
  exact Option.some_ne_none d

/-- The document of a node that is laid out has its outline, or is code with its tag. -/
theorem gives_printNode_of_hasLayout {keep : Char → Bool} {Aside : Doc → Prop}
    {P : Node → Doc → Prop} (hcounts : Counts keep Aside done scene) {path : Tree.Path Info}
    (hnodes : nodesOf children = path.node.children) (h : ∀ c ∈ children, Sown done P c)
    (hlayout : HasLayout done scene path.node) :
    Gives done (printNode language scene path children) fun d =>
      (∃ tag template code, HoldsCode scene.text path.node tag template code ∧
        Embeds P scene tag code d) ∨ Outlined keep Aside P done scene path.node d := by
  have hnode : Gives done (node scene path children) fun answer =>
      ∃ d ∈ answer, Outlined keep Aside P done scene path.node d := by
    intro st answer st' hst hrun
    obtain ⟨hst', houtlined⟩ := outlined_node hcounts hnodes h st answer st' hst hrun
    refine ⟨hst', ?_⟩
    cases answer with
    | none => exact absurd rfl (hlayout.layout path.ancestors children hnodes st none st' hrun)
    | some d => exact ⟨d, rfl, houtlined d rfl⟩
  refine (reads_isIgnored path.node).bind_gives ?_
  rw [hlayout.wanted, if_neg Bool.false_ne_true]
  refine (gives_embedded hnodes fun c hc => (h c hc).delivers).bind_option
    (fun d hd => gives_pure (.inl hd)) ?_
  refine (reads_hasDanglingComments path.node).bind_gives ?_
  split
  · rename_i hcopied
    rw [Bool.and_eq_true, Bool.not_eq_true'] at hcopied
    exact absurd (hlayout.dangling hcopied.1) (Bool.eq_false_iff.mp hcopied.2)
  · refine hnode.bind fun answer hanswer => ?_
    obtain ⟨d, hd, houtlined⟩ := hanswer
    cases hd
    exact gives_pure (.inr houtlined)

/-! ## Names -/

/-- A name is printed as it stands. -/
theorem ends_printNode_of_identifier (hkind : kindOf v = .identifier)
    (hx : slice? scene.text v.start v.stop = some x) (ancestors : List Node)
    (children : List Child) :
    Ends done (fun _ => True) (printNode language scene ⟨v, ancestors⟩ children)
      fun d => d = .text x := by
  obtain ⟨id, start, stop, ⟨kind, tokens, operator⟩, below⟩ := v
  cases hkind
  have hcopy : Ends done (fun _ => True) (verbatim scene
      (⟨id, start, stop, ⟨.identifier, tokens, operator⟩, below⟩ : Node)) fun d => d = .text x := by
    refine ends_verbatim trivial fun s hs => ?_
    rw [sliceOrError_eq_ok_iff, hx] at hs
    rw [Option.some.inj hs]
  have hprint : Ends done (fun _ => True)
      (Printer.print scene ⟨⟨id, start, stop, ⟨.identifier, tokens, operator⟩, below⟩, ancestors⟩
        children) fun d => d = .text x :=
    (ends_hasDanglingComments _).bind fun _ _ => ends_ite hcopy hcopy
  exact (ends_isIgnored language _).bind fun _ _ => ends_ite hcopy hprint

/-- Templates and names have no layout. -/
theorem not_hasLayout_of_copied (hkind : kindOf t = .templateString ∨ kindOf t = .identifier) :
    ¬ HasLayout done scene t := by
  intro h
  obtain ⟨id, start, stop, ⟨kind, tokens, operator⟩, below⟩ := t
  rcases hkind with hkind | hkind
  · cases hkind
    exact h.layout [] _ (map_node_below scene [] _) ⟨done, 0⟩ none _ rfl rfl
  · cases hkind
    exact h.layout [] _ (map_node_below scene [] _) ⟨done, 0⟩ none _ rfl rfl

/-! ## The cursors in a document -/

theorem closed_tidy (x : String) : Closed (fun _ => True) (Tidy x) := by
  refine closed_of_children fun d _ hprinted hchildren => .intro ?_ hchildren
  rintro rfl
  cases hprinted

theorem tidy_of_printed {d : Doc} (h : Printed d) : Tidy x d := by
  induction h with
  | intro self _ ih =>
    refine .intro ?_ ih
    rintro rfl
    cases self

/-- Cursors stand around the name that they are asked for. -/
theorem heritage_tidy (hroot : root.WellFormed) (hv : v ∈ root.nodes)
    (hkind : kindOf v = .identifier) (hx : slice? scene.text v.start v.stop = some x)
    (hcursor : scene.cursorNode = some v.id)
    (hcode : ∀ code group, Yields (fun _ => True) (fun r => Printed r.1)
      (scene.embedded code (Embedded.codeOptions scene.options) group)) :
    Heritage done (fun _ => True) (fun _ => True) (Tidy x) scene root := by
  refine heritage_of_closed (closed_tidy x) (fun code group => ?_) fun t ht hid ancestors children => ?_
  · exact (hcode code group).mono (fun _ => id) fun r hr =>
      tidy_of_printed (hr.stripTrailingHardline fun _ => rfl)
  · have hid : t.id = v.id := Option.some.inj (hid.symm.trans hcursor)
    obtain rfl := hroot.eq_of_id_eq ht hv hid
    refine (ends_printNode_of_identifier hkind hx ancestors children).mono fun d hd => ?_
    rw [hd]
    exact .marked

/-! ## The name is met -/

/-- The name is met in the documents of the nodes around it. -/
def MeetsName (v : Node) (x : String) (t : Node) (d : Doc) : Prop := v ∈ t.nodes → Meets x [d]

theorem meets_concat {d e : Doc} {parts : List Doc} (h : Meets x [e]) (he : e ∈ parts)
    (hd : d = .concat parts) : Meets x [d] := by
  obtain ⟨before, after, rfl⟩ := List.append_of_mem he
  rw [hd]
  exact ((h.append after).of_suffix before).concat

/-- Comments around a document leave in it what is met. -/
theorem meets_of_visited {d e : Doc} (h : Meets x [e])
    (hd : d = e ∨ done.of t.id ≠ [] ∧ ∃ before after, d = .concat (before ++ e :: after)) :
    Meets x [d] := by
  rcases hd with rfl | ⟨-, before, after, rfl⟩
  · exact h
  · exact meets_concat h (by simp) rfl

/-- A node that is laid out passes the name on. -/
theorem meets_of_layout (hshape : Shaped root) (hkind : kindOf v = .identifier)
    (habove : ∀ t ∈ root.nodes, v ∈ t.nodes → t ≠ v → HasLayout done scene t)
    (ht : t ∈ root.nodes) (hvt : v ∈ t.nodes) (htv : t ≠ v) {d : Doc}
    (hd : (∃ tag template code, HoldsCode scene.text t tag template code ∧
        Embeds (MeetsName v x) scene tag code d) ∨
      Outlined (fun _ => false) (fun _ => True) (MeetsName v x) done scene t d) : Meets x [d] := by
  obtain ⟨c, hc, hvc⟩ := (Tree.mem_nodes.mp hvt).resolve_left (Ne.symm htv)
  have hcroot : c ∈ root.nodes :=
    mem_nodes_trans (mem_nodes_of_mem_children hc (mem_nodes_self c)) ht
  rcases hd with ⟨tag, template, code, hcode, hembeds⟩ | ⟨shape, houtline, ls, hlays, rfl, hparts⟩
  · -- The name is not in the template, since templates are copied.
    have hvtag : v ∈ tag.nodes := by
      rw [hcode.parts] at hc
      rcases List.mem_pair.mp hc with rfl | rfl
      · exact hvc
      · have hne : c ≠ v := by
          rintro rfl
          exact absurd (hcode.kindTemplate.symm.trans hkind) (by decide)
        exact absurd (habove c hcroot hvc hne) (not_hasLayout_of_copied (.inl hcode.kindTemplate))
    cases hembeds with
    | blank hd => exact meets_concat (hd hvtag) List.mem_cons_self rfl
    | code hd => exact meets_concat (hd hvtag) List.mem_cons_self rfl
  · have hattach : language.canAttach c = true := by
      by_contra hattach
      rw [Bool.not_eq_true] at hattach
      rw [Tree.mem_nodes, hshape.transparent c hcroot hattach] at hvc
      obtain rfl : v = c := hvc.resolve_right (by simp)
      simp [language, hkind] at hattach
    obtain ⟨hchain, hempty⟩ := canAttach_iff.mp hattach
    obtain ⟨u, hu, hvu⟩ := inr_mem_of_outline houtline (hshape.leaf t ht) hc hchain hempty
      (fun h => absurd (h.symm.trans hkind) (by decide)) hvc
    obtain ⟨leaf, hleaf, heq⟩ := List.mem_map.mp hu
    cases leaf with
    | char => cases heq
    | part b e =>
      cases heq
      exact hlays.meets hleaf (hparts _ e hleaf hvu)

/-- **All nodes around a name pass it on.** -/
theorem sown_meetsName (hroot : root.WellFormed) (hshape : Shaped root) (hv : v ∈ root.nodes)
    (hkind : kindOf v = .identifier) (hx : slice? scene.text v.start v.stop = some x)
    (hcursor : scene.cursorNode = some v.id)
    (habove : ∀ t ∈ root.nodes, v ∈ t.nodes → t ≠ v → HasLayout done scene t)
    (ht : t ∈ root.nodes) (ancestors : List Node) :
    Sown done (MeetsName v x) (Printable.ofTree language scene ancestors t) := by
  refine sown_of_visit (fun t ht ancestors hbelow => ?_) ht ancestors
  have hnodes : nodesOf (below scene ancestors t) = t.children := map_node_below scene ancestors t
  have hcounts := counts_nothing done scene
  by_cases hvt : v ∈ t.nodes
  · by_cases htv : t = v
    · subst htv
      have hframed : Meets x [framed scene t (.text x)] := by
        rw [framed, if_pos hcursor]
        exact .marked x
      refine (gives_visit (ends_printNode_of_identifier hkind hx ancestors _).gives).mono ?_
      rintro d' ⟨d, rfl, hd'⟩ -
      exact meets_of_visited hframed hd'
    · have hunframed : ∀ d, framed scene t d = d := fun d => by
        rw [framed, if_neg]
        rw [hcursor]
        exact fun hid => htv (hroot.eq_of_id_eq ht hv (Option.some.inj hid).symm)
      refine (gives_visit (gives_printNode_of_hasLayout hcounts hnodes hbelow
        (habove t ht hvt htv))).mono ?_
      rintro d' ⟨d, hd, hd'⟩ -
      rw [hunframed] at hd'
      exact meets_of_visited (meets_of_layout hshape hkind habove ht hvt htv hd) hd'
  · exact (form_visit hcounts ⟨t, ancestors⟩ hnodes hbelow).mono fun _ _ h => absurd h hvt

/-- The document of a tree with a name in it: cursors stand around the name only, and it is met. -/
theorem cursors_printTree (hroot : root.WellFormed) (hshape : Shaped root) (hv : v ∈ root.nodes)
    (hkind : kindOf v = .identifier) (hx : slice? scene.text v.start v.stop = some x)
    (hcursor : scene.cursorNode = some v.id)
    (hcode : ∀ code group, Yields (fun _ => True) (fun r => Printed r.1)
      (scene.embedded code (Embedded.codeOptions scene.options) group))
    (habove : ∀ t ∈ root.nodes, v ∈ t.nodes → t ≠ v → HasLayout done scene t) {group : GroupId}
    {d : Doc} {st : WalkState} (hrun : printTree language scene root 0 ⟨done, group⟩ = .ok (d, st)) :
    Tidy x d ∧ Meets x [d] := by
  obtain ⟨e, st', he, hd⟩ := bind_eq_ok.mp hrun
  obtain rfl : d = e.propagateBreaks := by
    cases hd
    rfl
  have hsown := (sown_meetsName hroot hshape hv hkind hx hcursor habove (mem_nodes_self root) []).delivers
  have hheritage : Heritage done (fun _ => True) (fun _ => True) (Tidy x) scene root :=
    heritage_tidy hroot hv hkind hx hcursor hcode
  have htidy := hheritage.heir (mem_nodes_self root) []
  rw [Delivers, node_ofTree] at hsown
  exact ⟨(htidy.print.gives _ _ _ rfl he).2.propagateBreaks,
    ((hsown _ _ _ rfl he).2 hv).propagateBreaks⟩

/-! ## Formatting -/

section Formatting

variable {p : TextParser} {text s : String} {options : Options} {parsed : Parsed Info} {job : Job}
  {k : Nat}

/-- What comes out when the whole of a text is formatted, and where the cursor goes. -/
theorem formatWithCursor_of_prints {d : Doc} {st : WalkState} (hwhole : options.formatsWholeFile = true)
    (hvalid : options.validate = .ok ()) (hjs : IsJavaScript options)
    (h : Prints p (named options) text s job parsed d st) :
    (formatterOf p).formatWithCursor text options = .ok (laidOut job parsed.tree 0 d) := by
  have hformat : (formatterOf p).formatWithCursor text options =
      formatText (parsing p) ((formatterOf p).embedding ((formatterOf p).nesting text))
        (named options) text := by
    rw [Formatter.formatWithCursor, select_of_valid hvalid hjs]
    rfl
  rw [hformat]
  exact (formatText_eq_ok_iff (n := named options) hwhole h.wanted).mpr ⟨job, parsed, h.prepared,
    h.parses, printParsed_eq_ok_iff.mpr ⟨d, st, h.printed, h.complete, rfl⟩⟩

/-- Where the cursor goes, if its node starts at `start` in the output. -/
theorem laidOut_of_cursor {tree : Node} {d : Doc} {id start stop : Nat}
    (htarget : cursorTarget job.options tree = some (id, k))
    (hstart : (Layout.print (job.options.page job.text) d).cursor = some start)
    (hstop : (Layout.print (job.options.page job.text) d).cursorEnd = some stop)
    (hk : start + k ≤ stop) :
    laidOut job tree 0 d =
      ⟨restoreMark job.marked (Layout.print (job.options.page job.text) d).formatted,
        some ((if job.marked then start + 3 else start) + k)⟩ := by
  have hmap : mapCursor (some (id, k)) (Layout.print (job.options.page job.text) d) =
      some (start + k) := by
    simp only [mapCursor, hstart, hstop, Nat.min_eq_left hk]
  rw [laidOut, if_neg (Nat.lt_irrefl 0), htarget, hmap]
  cases job.marked <;> simp [Nat.add_right_comm]

/-- A byte-order mark moves everything by three bytes. -/
theorem slice?_restoreMark {out : String} {before after : List Char}
    (h : out.toList = before ++ x.toList ++ after) (marked : Bool) :
    let start := if marked then byteLength before + 3 else byteLength before
    slice? (restoreMark marked out) start (start + x.utf8ByteSize) = some x := by
  refine slice?_eq_some_iff.mpr ?_
  rw [restoreMark]
  cases marked with
  | false => exact ⟨before, after, h, rfl, by rw [byteLength_toList]; rfl⟩
  | true =>
    refine ⟨byteOrderMark :: before, after, ?_, ?_, ?_⟩
    · simp [h]
    · rw [byteLength_cons, Nat.add_comm]
      rfl
    · rw [byteLength_cons, byteLength_toList, Nat.add_comm _ (byteLength before)]
      rfl

/-- What the printers can read of such a text. -/
abbrev plainScene (p : TextParser) (options : Options) (text : String) (tree : Node) : Scene :=
  sceneOf ((formatterOf p).embedding ((formatterOf p).nesting text)) (plainJob options text) tree

/-- The cursor stands in the name `x`, which is the text of the node `v`, `k` bytes after its start. -/
structure InName (options : Options) (text : String) (tree v : Node) (x : String) (k : Nat) :
    Prop where
  mem : v ∈ tree.nodes
  kind : kindOf v = .identifier
  leaf : v.children = []
  source : slice? (stripMark text) v.start v.stop = some x
  ends : ∃ c ∈ x.toList.getLast?, isPadding c = false
  inside : k < x.utf8ByteSize
  cursor : (plainJob options text).options.cursorOffset = some (v.start + k)

theorem InName.cursorTarget_eq {tree v : Node} (h : InName options text tree v x k)
    (hroot : tree.WellFormed) (hfirst : k = 0 → ∀ u ∈ tree.nodes, u.stop ≠ v.start) :
    cursorTarget (plainJob options text).options tree = some (v.id, k) := by
  have hlies := slice?_eq_some_iff.mp h.source
  have hstop : v.stop = v.start + x.utf8ByteSize := by
    obtain ⟨before, after, -, hstart, hstop⟩ := hlies
    rw [← hstop, hstart, byteLength_toList]
  have hinside := h.inside
  obtain ⟨ancestors, hfound⟩ := exists_find?_of_leaf hroot h.mem h.leaf
    (Nat.le_add_right v.start k) (by omega) fun heq u hu => by
      have hk : k = 0 := by omega
      rw [hk]
      exact hfirst hk u hu
  rw [cursorTarget, h.cursor, Option.bind_some, hfound, Option.map_some]
  simp

/-- **The cursor stays in its name.** The name stands in the output where its document was printed, and
the cursor as many bytes after its start as before. -/
theorem formatWithCursor_identifier (hwhole : options.formatsWholeFile = true)
    (hwanted : skips options text = false) (hpragma : putsPragma (named options) text = false)
    (hformat : (formatterOf p).format text options = .ok s)
    (hparse : p (stripMark text) = .ok parsed) (hroot : parsed.tree.WellFormed)
    (hshape : Shaped parsed.tree) (hname : InName options text parsed.tree v x k)
    (hfirst : k = 0 → ∀ u ∈ parsed.tree.nodes, u.stop ≠ v.start)
    (habove : ∀ t ∈ parsed.tree.nodes, v ∈ t.nodes → t ≠ v →
      HasLayout (attached language (stripMark text) parsed) (plainScene p options text parsed.tree) t) :
    ∃ d st place, Prints p (named options) text s (plainJob options text) parsed d st ∧
      (plainScene p options text parsed.tree).cursorNode = some v.id ∧
      (Layout.print ((plainJob options text).options.page (stripMark text)) d).cursor = some place ∧
      let start := if startsWithMark text then place + 3 else place
      (formatterOf p).formatWithCursor text options = .ok ⟨s, some (start + k)⟩ ∧
        slice? s start (start + x.utf8ByteSize) = some x := by
  obtain ⟨hvalid, hjs, ⟨hskips, -⟩ | ⟨job, parsed', d, st, hprints⟩⟩ :=
    (format_eq_ok_iff hwhole).mp hformat
  · exact absurd (hskips.symm.trans hwanted) Bool.noConfusion
  obtain rfl : job = plainJob options text :=
    (Except.ok.inj ((prepare_of_not_putsPragma hpragma).symm.trans hprints.prepared)).symm
  have htext : (plainJob options text).text = stripMark text := unmark_text _ _
  obtain rfl : parsed' = parsed := by
    have hparses := hprints.parses
    rw [htext, hparse] at hparses
    exact (Except.ok.inj hparses).symm
  have htarget := hname.cursorTarget_eq hroot hfirst
  have hcursor : (plainScene p options text parsed'.tree).cursorNode = some v.id := by
    rw [plainScene, sceneOf, htarget]
    rfl
  have hsource : slice? (plainScene p options text parsed'.tree).text v.start v.stop = some x := by
    rw [show (plainScene p options text parsed'.tree).text = stripMark text from htext]
    exact hname.source
  have hprinted := hprints.printed
  rw [htext] at hprinted
  obtain ⟨htidy, hmeets⟩ := cursors_printTree hroot hshape hname.mem hname.kind hsource hcursor
    (printed_embedding _ · _) habove hprinted
  obtain ⟨before, after, hout, hstart, hstop⟩ := cursor_of_meets
    ((plainJob options text).options.page (plainJob options text).text) htidy hmeets hname.ends
  have hmark : (plainJob options text).marked = startsWithMark text := by
    rw [plainJob, unmark]
    split <;> simp [*]
  have hinside := hname.inside
  have hend : byteLength before + k ≤ byteLength (before ++ x.toList) := by
    rw [byteLength_append, byteLength_toList]
    omega
  refine ⟨d, st, byteLength before, hprints, hcursor, htext ▸ hstart, ?_⟩
  rw [formatWithCursor_of_prints hwhole hvalid hjs hprints,
    laidOut_of_cursor htarget hstart hstop hend, ← hprints.outcome, hmark]
  refine ⟨rfl, ?_⟩
  rw [hprints.outcome, hmark]
  exact slice?_restoreMark hout _

end Formatting

/-! ## A name after blanks -/

/-- A statement that is a name. -/
def nameStatement : Node :=
  ⟨1, 2, 4, ⟨.expressionStatement, [], none⟩, [⟨2, 2, 4, ⟨.identifier, [], none⟩, []⟩]⟩

def nameTree : Node := ⟨0, 0, 4, ⟨.program, [], none⟩, [nameStatement]⟩

theorem formatWithCursor_name :
    let f := formatterOf fun _ => .ok ⟨nameTree, []⟩
    let options : Options := { parser := some "javascript", cursorOffset := some 3 }
    f.format "  ab" options = .ok "ab;\n" ∧
      ∃ start, f.formatWithCursor "  ab" options = .ok ⟨"ab;\n", some (start + 1)⟩ ∧
        slice? "ab;\n" start (start + 2) = some "ab" := by
  intro f options
  have hformat : f.format "  ab" options = .ok "ab;\n" := by decide +kernel
  have hroot : nameTree.WellFormed := by
    constructor <;> simp [nameTree, nameStatement, nodes, nodesAll]
  have hshape : Shaped nameTree := by
    constructor <;>
      simp [nameTree, nameStatement, nodes, nodesAll, language, kindOf, printsDangling]
  have hname : InName options "  ab" nameTree ⟨2, 2, 4, ⟨.identifier, [], none⟩, []⟩ "ab" 1 :=
    ⟨by simp [nameTree, nameStatement, nodes, nodesAll], rfl, rfl, by decide +kernel,
      ⟨'b', by decide, by decide⟩, by decide, by decide +kernel⟩
  obtain ⟨d, st, place, -, -, -, hcursor, hslice⟩ := formatWithCursor_identifier rfl
    (by decide +kernel) (by decide +kernel) hformat rfl hroot hshape hname (by simp) fun t ht hv hne => by
      have hnodes : t = nameTree ∨ t = nameStatement := by
        simp only [nameTree, nameStatement, nodes, nodesAll, List.append_nil, List.mem_cons,
          List.not_mem_nil, or_false] at ht
        rcases ht with rfl | rfl | rfl
        · exact .inl rfl
        · exact .inr rfl
        · exact absurd rfl hne
      rcases hnodes with rfl | rfl
      · exact hasLayout_of_some (by decide +kernel) (by decide +kernel) fun _ _ _ => ⟨_, rfl⟩
      · refine hasLayout_of_some (by decide +kernel) (by decide +kernel) fun _ children hnodes => ?_
        obtain ⟨c, rfl, -⟩ := List.map_eq_singleton_iff.mp hnodes
        exact ⟨_, rfl⟩
  exact ⟨hformat, _, hcursor, hslice⟩

/-- The name of a class is copied with the class, and the cursor is lost. -/
theorem not_tracked :
    ¬ ∀ (text s x : String) (options : Options) (parsed : Parsed Info) (v : Node) (k : Nat),
      options.validate = .ok () → IsJavaScript options → options.formatsWholeFile = true →
      options.insertPragma = false → formatter.format text options = .ok s →
      parse text = .ok parsed → v ∈ parsed.tree.nodes → kindOf v = .identifier →
      slice? text v.start v.stop = some x → k < x.utf8ByteSize →
      options.cursorOffset = some (v.start + k) →
      ∃ start, formatter.formatWithCursor text options = .ok ⟨s, some (start + k)⟩ ∧
        slice? s start (start + x.utf8ByteSize) = some x := by
  intro h
  have hformat : formatter.formatWithCursor "class A \x7b\x7d"
      { parser := some "javascript", cursorOffset := some 6 } =
        .ok ⟨"class A \x7b\x7d\n", none⟩ := by
    decide +kernel
  have hparse : (parse "class A \x7b\x7d").toOption.map (fun p => p.tree.nodes.any fun v =>
      kindOf v = .identifier && v.start == 6 && v.stop == 7) = some true := by
    decide +kernel
  obtain ⟨parsed, hparsed, hnodes⟩ := Option.map_eq_some_iff.mp hparse
  obtain ⟨v, hv, hname⟩ := List.any_eq_true.mp hnodes
  simp only [Bool.and_eq_true, decide_eq_true_eq, beq_iff_eq] at hname
  obtain ⟨⟨hkind, hstart⟩, hstop⟩ := hname
  obtain ⟨start, hcursor, -⟩ := h "class A \x7b\x7d" "class A \x7b\x7d\n" "A"
    { parser := some "javascript", cursorOffset := some 6 } parsed v 0 rfl rfl rfl rfl
    (by rw [Formatter.format, hformat]; rfl) (Formatter.eq_ok_of_toOption hparsed) hv hkind
    (by rw [hstart, hstop]; decide +kernel) (by decide) (by rw [hstart])
  rw [hformat] at hcursor
  cases hcursor

end CodeFormatter.JavaScript
