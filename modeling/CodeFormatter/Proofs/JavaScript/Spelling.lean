import CodeFormatter.Proofs.JavaScript.Outlines
import CodeFormatter.Proofs.Text.Slice

/-!
# How a tree spells its text

A grammar makes a node of *items*: tokens, and the nodes below it. The items of a node stand in the
text one after the other with blanks between them (`Spelled`), and which ones they are depends on
the kind of the node (`Rule`). Commas and semicolons are left out of a rule, for the grammar lets
some of them come and go. A tree whose nodes are all made in this way *covers* its text.

**Theorem (`flatMap_writing`).** What is printed for a node is what its items spell. Spaces do not
count, nor do commas, semicolons and quotes, which printers may put in, leave out or exchange.
-/

namespace CodeFormatter.JavaScript

open Layout Printer CodeFormatter.Tree Walk

variable {text : String} {a b : Nat} {root t u v : Node} {K : Node → List Char} {done : Comments}
  {scene : Scene}

/-! ## Characters -/

/-- A blank of the grammar that is not white space: the byte-order mark, the zero-width space and the
word joiner. -/
def isExtraBlank (c : Char) : Bool := c == byteOrderMark || c == '\u200B' || c == '\u2060'

/-- A character that may stand between two items. -/
def isFiller (c : Char) : Bool := isBlank c || isExtraBlank c

/-- A character that printers may put in, leave out or exchange. -/
def isLoose (c : Char) : Bool := isFiller c || c == ';' || c == ',' || c == '"' || c == '\''

/-- The other characters of a text. They make up its tokens. -/
def solid (cs : List Char) : List Char := cs.filter (!isLoose ·)

@[simp] theorem solid_nil : solid [] = [] := rfl

@[simp] theorem solid_append (cs ds : List Char) : solid (cs ++ ds) = solid cs ++ solid ds :=
  List.filter_append ..

theorem solid_cons (c : Char) (cs : List Char) :
    solid (c :: cs) = if isLoose c then solid cs else c :: solid cs := by
  rw [solid, List.filter_cons]
  cases isLoose c <;> rfl

theorem solid_eq_nil {cs : List Char} (h : ∀ c ∈ cs, isLoose c = true) : solid cs = [] :=
  List.filter_eq_nil_iff.mpr fun c hc => by simp [h c hc]

theorem isLoose_of_isFiller {c : Char} (h : isFiller c = true) : isLoose c = true := by
  simp [isLoose, h]

/-! ## Items -/

/-- A token, by its text, or a node. -/
abbrev Item := String ⊕ Node

/-- Nodes as items. -/
def itemsOf (us : List Node) : List Item := us.map .inr

/-- The nodes among some items. -/
def nodesIn (items : List Item) : List Node := items.filterMap Sum.getRight?

/-- Is the item a comma or a semicolon? -/
def isMark : Item → Bool
  | .inl s => s == "," || s == ";"
  | .inr _ => false

/-- Items without commas and semicolons. -/
def core (items : List Item) : List Item := items.filter (!isMark ·)

/-- Nothing but blanks stands from one offset to the other. -/
def Gap (text : String) (a b : Nat) : Prop :=
  ∃ cs, Lies text.toList a b cs ∧ ∀ c ∈ cs, isFiller c = true

/-- The items stand one after the other from one offset to the other, with blanks around them. -/
inductive Spelled (text : String) : Nat → List Item → Nat → Prop
  | blank {a b : Nat} : Gap text a b → Spelled text a [] b
  | token {a b c d : Nat} {s : String} {items : List Item} : Gap text a b →
      Lies text.toList b c s.toList → Spelled text c items d → Spelled text a (.inl s :: items) d
  | node {a b : Nat} {u : Node} {cs : List Char} {items : List Item} : Gap text a u.start →
      Lies text.toList u.start u.stop cs → Spelled text u.stop items b →
      Spelled text a (.inr u :: items) b

/-! ## Rules -/

section Rules

variable (t : Node) (items : List Item)

/-- Two nodes with a token between them. -/
def Joins (token : String) : Prop :=
  ∃ u v, t.children = [u, v] ∧ items = [.inr u, .inl token, .inr v]

/-- A keyword and the nodes after it. -/
def Headed (keyword : String) : Prop := items = .inl keyword :: itemsOf t.children

/-- Nodes between brackets. -/
def Enclosed (opening closing : String) : Prop :=
  items = .inl opening :: itemsOf t.children ++ [.inl closing]

/-- A token, if it is among the tokens of the node. -/
def tokenIf (token : String) : List Item :=
  if t.info.tokens.contains token then [.inl token] else []

/-- Nodes that make up a function, by their kinds. -/
structure IsFunction (name : Option Node) (parameters body : Node) : Prop where
  name : ∀ u ∈ name, kindOf u = .identifier
  parameters : kindOf parameters = .formalParameters
  body : kindOf body = .statementBlock

/-- The items that make up a node of some kind, without commas and semicolons. -/
def Rule : Prop :=
  match kindOf t with
  | .program | .expressionStatement | .callExpression => items = itemsOf t.children
  | .statementBlock | .object => Enclosed t items "\x7b" "\x7d"
  | .formalParameters | .arguments | .parenthesizedExpression => Enclosed t items "(" ")"
  | .array => Enclosed t items "[" "]"
  | .emptyStatement => items = []
  | .optionalChain => items = [.inl "?."]
  | .lexicalDeclaration | .variableDeclaration =>
    ∃ keyword ∈ t.info.tokens.head?, Headed t items keyword
  | .ifStatement => Headed t items "if"
  | .elseClause => Headed t items "else"
  | .whileStatement => Headed t items "while"
  | .returnStatement => Headed t items "return"
  | .throwStatement => Headed t items "throw"
  | .breakStatement => Headed t items "break"
  | .continueStatement => Headed t items "continue"
  | .newExpression => Headed t items "new"
  | .awaitExpression => Headed t items "await"
  | .spreadElement => Headed t items "..."
  | .variableDeclarator =>
    (∃ u, t.children = [u] ∧ items = [.inr u]) ∨ Joins t items "="
  | .assignmentExpression => Joins t items "="
  | .augmentedAssignmentExpression | .binaryExpression =>
    ∃ operator ∈ t.info.operator, Joins t items operator.text
  | .unaryExpression => ∃ operator ∈ t.info.operator, Headed t items operator.text
  | .updateExpression => ∃ operator ∈ t.info.operator, ∃ u, t.children = [u] ∧
    items = if operator.start < u.start then [.inl operator.text, .inr u]
      else [.inr u, .inl operator.text]
  | .pair => Joins t items ":"
  | .memberExpression => Joins t items "." ∨
    (∃ u mark v, t.children = [u, mark, v] ∧ kindOf mark = .optionalChain ∧
      items = [.inr u, .inr mark, .inr v])
  | .subscriptExpression =>
    (∃ u v, t.children = [u, v] ∧ items = [.inr u, .inl "[", .inr v, .inl "]"]) ∨
    (∃ u mark v, t.children = [u, mark, v] ∧ kindOf mark = .optionalChain ∧
      items = [.inr u, .inr mark, .inl "[", .inr v, .inl "]"])
  | .ternaryExpression => ∃ u v w, t.children = [u, v, w] ∧
    items = [.inr u, .inl "?", .inr v, .inl ":", .inr w]
  | .functionDeclaration | .generatorFunctionDeclaration | .functionExpression
  | .generatorFunction => ∃ (name : Option Node) (parameters body : Node),
    IsFunction name parameters body ∧ t.children = name.toList ++ [parameters, body] ∧
    items = tokenIf t "async" ++ .inl "function" :: tokenIf t "*" ++ itemsOf t.children
  | .arrowFunction => ∃ u v, t.children = [u, v] ∧
    items = tokenIf t "async" ++ [.inr u, .inl "=>", .inr v]
  | _ => True

end Rules

/-- The tree is that of the text: each of its nodes is made of its items, all nodes below it among
them, as its rule says, and nothing but blanks is outside of it. The brackets of an array stand at
its ends, and so do the quotes of a string. -/
structure Covers (text : String) (root : Node) : Prop where
  before : Gap text 0 root.start
  after : Gap text root.stop text.utf8ByteSize
  spelled : ∀ t ∈ root.nodes, ∃ items, Spelled text t.start items t.stop ∧
    nodesIn items = t.children ∧ Rule t (core items)
  arrays : ∀ t ∈ root.nodes, kindOf t = .array → ∃ items,
    Spelled text (t.start + 1) items (t.stop - 1) ∧ nodesIn items = t.children
  strings : ∀ t ∈ root.nodes, kindOf t = .string → ∃ quote ∈ ['"', '\''], ∃ cs,
    Lies text.toList t.start t.stop (quote :: cs ++ [quote])

/-! ## What items spell -/

/-- What an item spells, if `K` is what the nodes do. -/
def reading (K : Node → List Char) : Item → List Char := Sum.elim (fun s => solid s.toList) K

/-- The solid characters of a node. -/
def solidOf (text : String) (t : Node) : List Char :=
  solid ((slice? text t.start t.stop).getD "").toList

theorem solidOf_eq {cs : List Char} (h : Lies text.toList t.start t.stop cs) :
    solidOf text t = solid cs := by
  rw [solidOf, slice?_of_lies h, Option.getD_some, String.toList_ofList]

theorem Gap.solid_eq {cs : List Char} (h : Gap text a b) (hcs : Lies text.toList a b cs) :
    solid cs = [] := by
  obtain ⟨gap, hgap, hall⟩ := h
  rw [hcs.eq hgap]
  exact solid_eq_nil fun c hc => isLoose_of_isFiller (hall c hc)

/-- **The text of some items is what they spell.** -/
theorem Spelled.exists_lies {items : List Item} (h : Spelled text a items b) :
    ∃ cs, Lies text.toList a b cs ∧ solid cs = items.flatMap (reading (solidOf text)) := by
  induction h with
  | blank hgap =>
    obtain ⟨cs, hcs, -⟩ := id hgap
    exact ⟨cs, hcs, hgap.solid_eq hcs⟩
  | token hgap hs _ ih =>
    obtain ⟨gap, hlies, -⟩ := id hgap
    obtain ⟨cs, hcs, heq⟩ := ih
    refine ⟨_, (hlies.append hs).append hcs, ?_⟩
    rw [solid_append, solid_append, hgap.solid_eq hlies, heq]
    rfl
  | node hgap hu _ ih =>
    obtain ⟨gap, hlies, -⟩ := id hgap
    obtain ⟨cs, hcs, heq⟩ := ih
    refine ⟨_, (hlies.append hu).append hcs, ?_⟩
    rw [solid_append, solid_append, hgap.solid_eq hlies, heq, ← solidOf_eq hu]
    rfl

theorem reading_of_isMark {item : Item} (h : isMark item = true) : reading K item = [] := by
  cases item with
  | inr u => cases h
  | inl s =>
    rw [isMark, Bool.or_eq_true, beq_iff_eq, beq_iff_eq] at h
    rcases h with rfl | rfl <;> rfl

/-- Commas and semicolons spell nothing. -/
theorem flatMap_core (items : List Item) :
    (core items).flatMap (reading K) = items.flatMap (reading K) := by
  induction items with
  | nil => rfl
  | cons item items ih =>
    rw [core, List.filter_cons]
    split
    · rw [List.flatMap_cons, List.flatMap_cons, ← ih, core]
    · rename_i hmark
      rw [List.flatMap_cons, reading_of_isMark (by simpa using hmark), List.nil_append, ← ih, core]

/-- **What a node spells is put together by its rule.** -/
theorem Covers.exists_rule (h : Covers text root) (ht : t ∈ root.nodes) : ∃ items, Rule t items ∧
    solidOf text t = items.flatMap (reading (solidOf text)) := by
  obtain ⟨items, hspelled, -, hrule⟩ := h.spelled t ht
  obtain ⟨cs, hcs, heq⟩ := hspelled.exists_lies
  exact ⟨core items, hrule, by rw [flatMap_core, solidOf_eq hcs, heq]⟩

/-- All solid characters of the text are those of the tree. -/
theorem Covers.solid_eq (h : Covers text root) : solid text.toList = solidOf text root := by
  obtain ⟨before, hbefore, -⟩ := id h.before
  obtain ⟨after, hafter, -⟩ := id h.after
  obtain ⟨_, hspelled, -⟩ := h.spelled root (mem_nodes_self root)
  obtain ⟨cs, hcs, -⟩ := hspelled.exists_lies
  have hwhole : text.toList = before ++ cs ++ after := by
    refine (Lies.whole text.toList).eq ?_
    rw [byteLength_toList]
    exact (hbefore.append hcs).append hafter
  rw [hwhole, solid_append, solid_append, h.before.solid_eq hbefore, h.after.solid_eq hafter,
    solidOf_eq hcs, List.nil_append, List.append_nil]

/-! ## What outlines write -/

/-- What a leaf of an outline writes, if `K` is what the nodes do. -/
def writing (K : Node → List Char) : Char ⊕ Node → List Char := Sum.elim (fun c => [c]) K

section Writing

@[simp] theorem writing_inr (u : Node) : writing K (.inr u) = K u := rfl

@[simp] theorem reading_inl (s : String) : reading K (.inl s) = solid s.toList := rfl

@[simp] theorem reading_inr (u : Node) : reading K (.inr u) = K u := rfl

@[simp] theorem flatMap_word (s : String) :
    (word (!isLoose ·) s).flatMap (writing K) = solid s.toList := by
  rw [word, List.flatMap_map]
  exact List.flatMap_singleton' _

@[simp] theorem flatMap_partsOf (us : List Node) :
    (partsOf us).flatMap (writing K) = us.flatMap K := by
  rw [partsOf, List.flatMap_map]
  rfl

@[simp] theorem flatMap_itemsOf (us : List Node) :
    (itemsOf us).flatMap (reading K) = us.flatMap K := by
  rw [itemsOf, List.flatMap_map]
  rfl

@[simp] theorem flatMap_separated (us : List Node) :
    (separated (!isLoose ·) us).flatMap (writing K) = us.flatMap K := by
  induction us using separated.induct with
  | case1 => rfl
  | case2 u => simp [separated]
  | case3 u rest hrest ih =>
    rw [separated]
    · simp +decide [ih, solid_cons]
    · exact hrest

theorem Joins.eq {items : List Item} {token : String} (h : Joins t items token)
    (hchildren : t.children = [u, v]) : items = [.inr u, .inl token, .inr v] := by
  obtain ⟨u', v', hchildren', rfl⟩ := h
  rw [hchildren, List.cons.injEq, List.cons.injEq] at hchildren'
  obtain ⟨rfl, rfl, -⟩ := hchildren'
  rfl

end Writing

section Outlines

variable {shape : List (Char ⊕ Node)}

/-- A statement that does nothing is not printed. It has no solid characters. -/
theorem Covers.solidOf_empty (h : Covers text root) (ht : t ∈ root.nodes)
    (hkind : kindOf t = .emptyStatement) : solidOf text t = [] := by
  obtain ⟨items, hrule, heq⟩ := h.exists_rule ht
  simp only [Rule, hkind] at hrule
  rw [heq, hrule]
  rfl

theorem Covers.solidOf_optionalChain (h : Covers text root) (ht : t ∈ root.nodes)
    (hkind : kindOf t = .optionalChain) : solidOf text t = "?.".toList := by
  obtain ⟨items, hrule, heq⟩ := h.exists_rule ht
  simp only [Rule, hkind] at hrule
  rw [heq, hrule]
  rfl

theorem Covers.flatMap_doing (h : Covers text root) {us : List Node}
    (hus : ∀ u ∈ us, u ∈ root.nodes) :
    (doing us).flatMap (solidOf text) = us.flatMap (solidOf text) := by
  induction us with
  | nil => rfl
  | cons u us ih =>
    have hrest := ih fun v hv => hus v (List.mem_cons_of_mem u hv)
    rw [doing, List.filter_cons]
    split
    · rw [List.flatMap_cons, List.flatMap_cons, ← hrest, doing]
    · rename_i hkind
      rw [List.flatMap_cons, ← hrest, doing,
        h.solidOf_empty (hus u List.mem_cons_self) (by simpa using hkind), List.nil_append]

theorem Covers.flatMap_clauseShape (h : Covers text root) (ht : t ∈ root.nodes) :
    (clauseShape (!isLoose ·) t).flatMap (writing (solidOf text)) = solidOf text t := by
  rw [clauseShape]
  split
  · rename_i hkind
    rw [flatMap_word, h.solidOf_empty ht hkind]
    rfl
  · simp

/-- A chain of operators writes what the two sides of its outermost operator do. -/
theorem Covers.flatMap_chained (h : Covers text root) {operator : String} {left right : Node}
    (hleft : left ∈ root.nodes)
    (hchain : Chained (!isLoose ·) done left operator right shape) :
    shape.flatMap (writing (solidOf text)) =
      solidOf text left ++ solid operator.toList ++ solidOf text right := by
  induction hchain with
  | whole left operator right => simp +decide [solid_cons]
  | @opened left innerLeft innerRight right operator inner shape hkind hchildren hinner _ _ ih =>
    have hbelow : innerLeft ∈ root.nodes :=
      mem_nodes_trans (mem_nodes_of_mem_children (by simp [hchildren]) (mem_nodes_self _)) hleft
    obtain ⟨items, hrule, heq⟩ := h.exists_rule hleft
    simp only [Rule, hkind, hinner] at hrule
    obtain ⟨_, ⟨⟩, hjoins⟩ := hrule
    rw [hjoins.eq hchildren] at heq
    simp +decide [ih hbelow, heq, solid_cons]

/-- A string keeps its characters when it gets other quotes. -/
theorem solid_requoted {preferred quote : Char} (hpreferred : isLoose preferred = true)
    (hquote : isLoose quote = true) (cs : List Char) :
    solid (requoted preferred (quote :: cs ++ [quote])) = solid (quote :: cs ++ [quote]) := by
  have hends : ∀ {c : Char}, isLoose c = true → solid (c :: cs ++ [c]) = solid cs := by
    intro c hc
    have hnone : solid [c] = [] := solid_eq_nil (by simpa using hc)
    rw [← List.singleton_append, solid_append, solid_append, hnone, List.nil_append, List.append_nil]
  rw [List.cons_append, requoted]
  split
  · rfl
  · rw [List.dropLast_concat, ← List.cons_append, hends hpreferred, hends hquote]

theorem Joins.flatMap_eq {items : List Item} {token : String} (h : Joins t items token)
    (hchildren : t.children = [u, v]) :
    items.flatMap (reading K) = K u ++ solid token.toList ++ K v := by
  rw [h.eq hchildren]
  simp

/-- The nodes of a function are told apart by their kinds. -/
theorem IsFunction.eq_of_perm {name name' : Option Node} {parameters parameters' body body' : Node}
    (h : IsFunction name parameters body) (h' : IsFunction name' parameters' body')
    (hperm : (name.toList ++ [parameters, body]).Perm (name'.toList ++ [parameters', body'])) :
    name' = name ∧ parameters' = parameters ∧ body' = body := by
  have hof : ∀ {u}, u ∈ name'.toList ++ [parameters', body'] →
      u ∈ name ∨ u = parameters ∨ u = body := fun hu => by
    simpa using hperm.mem_iff.mpr hu
  have hparameters : parameters' = parameters := by
    rcases hof (u := parameters') (by simp) with hu | hu | hu
    · simpa [h'.parameters] using h.name _ hu
    · exact hu
    · simpa [hu, h.body] using h'.parameters
  have hbody : body' = body := by
    rcases hof (u := body') (by simp) with hu | hu | hu
    · simpa [h'.body] using h.name _ hu
    · simpa [hu, h.parameters] using h'.body
    · exact hu
  refine ⟨?_, hparameters, hbody⟩
  have hlength := hperm.length_eq
  cases name' with
  | none => cases name with
    | none => rfl
    | some u => simp at hlength
  | some u =>
    have hname := h'.name u rfl
    rcases hof (u := u) (by simp) with hu | hu | hu
    · exact hu.symm
    · simp [hu, h.parameters] at hname
    · simp [hu, h.body] at hname

/-- **What is printed for a node is what its items spell.** -/
theorem Covers.flatMap_writing (h : Covers scene.text root) (ht : t ∈ root.nodes)
    (houtline : Outline (!isLoose ·) done scene t shape) :
    shape.flatMap (writing (solidOf scene.text)) = solidOf scene.text t := by
  have hbelow : ∀ {u}, u ∈ t.children → u ∈ root.nodes := fun hu =>
    mem_nodes_trans (mem_nodes_of_mem_children hu (mem_nodes_self _)) ht
  obtain ⟨items, hrule, heq⟩ := h.exists_rule ht
  rw [heq]
  cases houtline with
  | program hkind =>
    simp only [Rule, hkind] at hrule
    simp [hrule, h.flatMap_doing fun _ => hbelow]
  | block hkind =>
    simp only [Rule, hkind, Enclosed] at hrule
    simp [hrule, h.flatMap_doing fun _ => hbelow]
  | expression hkind hchildren hbefore hafter =>
    simp only [Rule, hkind, hchildren] at hrule
    simp only [List.mem_cons, List.not_mem_nil, or_false] at hbefore hafter
    rcases hbefore with rfl | rfl <;> rcases hafter with rfl | rfl <;>
      simp +decide [hrule, solid_cons]
  | declaration hkind hne hending =>
    have hheaded : ∃ keyword ∈ t.info.tokens.head?, Headed t items keyword := by
      rcases hkind with hkind | hkind <;> simpa only [Rule, hkind] using hrule
    obtain ⟨keyword, hkeyword, hheaded⟩ := hheaded
    rw [Option.mem_def] at hkeyword
    rw [Headed] at hheaded
    simp only [List.mem_cons, List.not_mem_nil, or_false] at hending
    rcases hending with rfl | rfl <;> simp +decide [hheaded, hkeyword, solid_cons]
  | @declarator u hkind hchildren =>
    simp only [Rule, hkind] at hrule
    rcases hrule with ⟨v, hchildren', rfl⟩ | ⟨_, _, hchildren', -⟩
    · rw [hchildren, List.singleton_inj] at hchildren'
      simp [hchildren']
    · rw [hchildren] at hchildren'
      cases hchildren'
  | @assignment u v sign hsign hchildren =>
    have hjoins : Joins t items sign := by
      rcases hsign with ⟨hkind | hkind, rfl⟩ | ⟨hkind, hoperator⟩
      · simp only [Rule, hkind] at hrule
        refine hrule.resolve_left ?_
        rintro ⟨_, hchildren', -⟩
        rw [hchildren] at hchildren'
        cases hchildren'
      · simpa only [Rule, hkind] using hrule
      · simp only [Rule, hkind] at hrule
        obtain ⟨operator, hmem, hjoins⟩ := hrule
        rw [Option.mem_def] at hmem
        rw [hmem] at hoperator
        cases hoperator
        exact hjoins
    rw [hjoins.flatMap_eq hchildren]
    simp +decide [solid_cons]
  | @branch condition consequence hkind hchildren =>
    simp only [Rule, hkind, Headed, hchildren] at hrule
    have hclause := h.flatMap_clauseShape (hbelow (u := consequence) (by simp [hchildren]))
    simp +decide [hrule, hclause, solid_cons]
  | @fork condition consequence alternative hkind hchildren =>
    simp only [Rule, hkind, Headed, hchildren] at hrule
    have hclause := h.flatMap_clauseShape (hbelow (u := consequence) (by simp [hchildren]))
    simp +decide [hrule, hclause, solid_cons]
  | @otherwise body hkind hchildren =>
    simp only [Rule, hkind, Headed, hchildren] at hrule
    have hclause := h.flatMap_clauseShape (hbelow (u := body) (by simp [hchildren]))
    simp +decide [hrule, hclause, solid_cons]
  | @loop condition body hkind hchildren =>
    simp only [Rule, hkind, Headed, hchildren] at hrule
    have hclause := h.flatMap_clauseShape (hbelow (u := body) (by simp [hchildren]))
    simp +decide [hrule, hclause, solid_cons]
  | @jump keyword ending hkeyword hlength hending =>
    have hheaded : Headed t items keyword := by
      simp only [List.mem_cons, List.not_mem_nil, or_false, Prod.mk.injEq] at hkeyword
      rcases hkeyword with ⟨hkind, rfl⟩ | ⟨hkind, rfl⟩ | ⟨hkind, rfl⟩ | ⟨hkind, rfl⟩ <;>
        simpa only [Rule, hkind] using hrule
    rw [Headed] at hheaded
    simp only [List.mem_cons, List.not_mem_nil, or_false] at hending
    rcases hending with rfl | rfl <;> simp +decide [hheaded, solid_cons]
  | @arrow parameters body hkind hchildren =>
    simp only [Rule, hkind] at hrule
    obtain ⟨u, v, hchildren', rfl⟩ := hrule
    rw [hchildren, List.cons.injEq, List.cons.injEq] at hchildren'
    obtain ⟨rfl, rfl, -⟩ := hchildren'
    rw [tokenIf]
    split <;> simp +decide [solid_cons]
  | @brackets opening closing hmem =>
    have henclosed : Enclosed t items opening closing := by
      simp only [List.mem_cons, List.not_mem_nil, or_false, Prod.mk.injEq] at hmem
      rcases hmem with ⟨hkind, rfl, rfl⟩ | ⟨hkind, rfl, rfl⟩ | ⟨hkind, rfl, rfl⟩ |
        ⟨hkind, rfl, rfl⟩ <;> simpa only [Rule, hkind] using hrule
    rw [Enclosed] at henclosed
    simp [henclosed, listShape]
  | creation hkind =>
    simp only [Rule, hkind, Headed] at hrule
    simp +decide [hrule, solid_cons]
  | operation hkind hchildren hoperator hchain =>
    simp only [Rule, hkind, hoperator] at hrule
    obtain ⟨_, ⟨⟩, hjoins⟩ := hrule
    rw [hjoins.flatMap_eq hchildren, h.flatMap_chained (hbelow (by simp [hchildren])) hchain]
  | @before u sign hsign hchildren =>
    have hheaded : ∃ token, Headed t items token ∧ solid token.toList = solid sign.toList := by
      rcases hsign with hsign | ⟨hkind, hoperator⟩
      · simp only [List.mem_cons, List.not_mem_nil, or_false, Prod.mk.injEq] at hsign
        rcases hsign with ⟨hkind, rfl⟩ | ⟨hkind, rfl⟩ <;> simp only [Rule, hkind] at hrule
        · exact ⟨_, hrule, rfl⟩
        · exact ⟨_, hrule, rfl⟩
      · simp only [Rule, hkind] at hrule
        obtain ⟨operator, hmem, hheaded⟩ := hrule
        rw [Option.mem_def] at hmem
        rw [hmem] at hoperator
        cases hoperator
        exact ⟨_, hheaded, rfl⟩
    obtain ⟨token, hheaded, hsolid⟩ := hheaded
    rw [Headed, hchildren] at hheaded
    simp [hheaded, hsolid, itemsOf]
  | @update u operator hkind hchildren hoperator =>
    simp only [Rule, hkind, hoperator, hchildren] at hrule
    obtain ⟨_, ⟨⟩, _, ⟨⟩, rfl⟩ := hrule
    split <;> simp
  | ternary hkind hchildren =>
    simp only [Rule, hkind, hchildren] at hrule
    obtain ⟨_, _, _, ⟨⟩, rfl⟩ := hrule
    simp +decide [solid_cons]
  | parenthesized hkind hchildren =>
    simp only [Rule, hkind, Enclosed, hchildren] at hrule
    simp [hrule, itemsOf]
  | string hkind hslice =>
    obtain ⟨quote, hquote, cs, hcs⟩ := h.strings t ht hkind
    rw [sliceOrError, slice?_of_lies hcs] at hslice
    cases hslice
    rw [← heq, solidOf_eq hcs, flatMap_word, String.toList_ofList, String.toList_ofList,
      solid_requoted]
    · split <;> rfl
    · rcases List.mem_pair.mp hquote with rfl | rfl <;> rfl
  | @access u v middle closing hmem hchildren =>
    simp only [List.mem_cons, List.not_mem_nil, or_false, Prod.mk.injEq] at hmem
    rcases hmem with ⟨hkind, rfl, rfl⟩ | ⟨hkind, rfl, rfl⟩ | ⟨hkind, rfl, rfl⟩ |
      ⟨hkind, rfl, rfl⟩ <;> simp only [Rule, hkind, hchildren] at hrule
    · simp [hrule]
    · rcases hrule with hjoins | ⟨_, _, _, ⟨⟩, -⟩
      simp [hjoins.flatMap_eq hchildren]
    · rcases hrule with ⟨_, _, ⟨⟩, rfl⟩ | ⟨_, _, _, ⟨⟩, -⟩
      simp
    · rw [hrule.flatMap_eq hchildren]
      simp +decide [solid_cons]
  | @optional u mark v middle closing hmem hchildren hmark =>
    have hoptional := h.solidOf_optionalChain (hbelow (u := mark) (by simp [hchildren])) hmark
    simp only [List.mem_cons, List.not_mem_nil, or_false, Prod.mk.injEq] at hmem
    rcases hmem with ⟨hkind, rfl, rfl⟩ | ⟨hkind, rfl, rfl⟩ | ⟨hkind, rfl, rfl⟩ <;>
      simp only [Rule, hkind, hchildren] at hrule
    · simp +decide [hrule, hoptional, solid_cons]
    · rcases hrule with ⟨_, _, hchildren', -⟩ | ⟨_, _, _, ⟨⟩, -, rfl⟩
      · rw [hchildren] at hchildren'
        cases hchildren'
      · simp +decide [hoptional, solid_cons]
    · rcases hrule with ⟨_, _, ⟨⟩, -⟩ | ⟨_, _, _, ⟨⟩, -, rfl⟩
      simp +decide [hoptional, solid_cons]
  | @function name parameters body hkind hname hparameters hbody hperm =>
    have hparts : ∃ (name : Option Node) (parameters body : Node), IsFunction name parameters body ∧
        t.children = name.toList ++ [parameters, body] ∧
        items = tokenIf t "async" ++ .inl "function" :: tokenIf t "*" ++ itemsOf t.children := by
      simp only [List.mem_cons, List.not_mem_nil, or_false] at hkind
      rcases hkind with hkind | hkind | hkind | hkind <;> simpa only [Rule, hkind] using hrule
    obtain ⟨name', parameters', body', hparts, hchildren, rfl⟩ := hparts
    rw [hchildren] at hperm
    obtain ⟨rfl, rfl, rfl⟩ := hparts.eq_of_perm ⟨hname, hparameters, hbody⟩ hperm
    simp only [tokenIf, functionShape, hchildren]
    split <;> split <;> simp +decide [solid_cons]

end Outlines

end CodeFormatter.JavaScript
