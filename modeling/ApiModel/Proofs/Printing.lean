import ApiModel.Proofs.Descending

/-!
Written types as queries. The written form has the markers behind the full name, and each const in
front or behind; a query loses every const again and puts the markers back on. So a written type is
looked up as itself without const, if the full name is found as it is written: the brackets in it
have to be closed, and no scope may have a name with a separator that it could be mistaken for.
-/

namespace ApiModel

namespace TypeRef

/-- The types that are built over a node by one kind of layer and by const. -/
inductive BuiltWith (layer : TypeRef → TypeRef) (id : TypeId) : TypeRef → Prop
  | raw : BuiltWith layer id (.raw id)
  | layer {ty : TypeRef} (below : BuiltWith layer id ty) : BuiltWith layer id (layer ty)
  | const {ty : TypeRef} (below : BuiltWith layer id ty) : BuiltWith layer id ty.toConst

/-- No const layer lies on another one. -/
def Unstacked : TypeRef → Prop
  | raw _ => True
  | pointer inner | reference inner => inner.Unstacked
  | const inner => (∀ ty, inner ≠ const ty) ∧ inner.Unstacked

def withoutConst : TypeRef → TypeRef
  | raw id => raw id
  | pointer inner => pointer inner.withoutConst
  | reference inner => reference inner.withoutConst
  | const inner => inner.withoutConst

def markers : TypeRef → List Char
  | raw _ => []
  | pointer inner => inner.markers ++ ['*']
  | reference inner => inner.markers ++ ['&']
  | const inner => inner.markers

@[simp] theorem markers_toConst (ty : TypeRef) : ty.toConst.markers = ty.markers := by
  cases ty <;> rfl

theorem isMarker_of_mem_markers {ty : TypeRef} : ∀ c ∈ ty.markers, TypeQuery.isMarker c = true := by
  induction ty with
  | raw id => exact fun _ => nofun
  | const inner ih => exact ih
  | pointer inner ih | reference inner ih =>
    intro c hc
    obtain hc | hc := List.mem_append.mp hc
    · exact ih c hc
    · obtain rfl := List.mem_singleton.mp hc
      decide

theorem applyMarkers_markers (ty : TypeRef) :
    TypeQuery.applyMarkers (.raw ty.base) ty.markers = ty.withoutConst := by
  rw [TypeQuery.applyMarkers]
  induction ty with
  | raw id => rfl
  | const inner ih => exact ih
  | pointer inner ih | reference inner ih =>
    rw [markers, List.foldl_append, base, ih]
    rfl

namespace BuiltWith

variable {id : TypeId} {ty : TypeRef}

theorem base_eq {layer : TypeRef → TypeRef} (hl : layer = .pointer ∨ layer = .reference)
    (h : BuiltWith layer id ty) : ty.base = id := by
  induction h with
  | raw => rfl
  | layer _ ih =>
    obtain rfl | rfl := hl <;> exact ih
  | const _ ih => rw [base_toConst, ih]

theorem unstacked {layer : TypeRef → TypeRef} (hl : layer = .pointer ∨ layer = .reference)
    (h : BuiltWith layer id ty) : ty.Unstacked := by
  induction h with
  | raw => trivial
  | layer _ ih => obtain rfl | rfl := hl <;> exact ih
  | @const ty _ ih =>
    cases ty with
    | const inner => exact ih
    | _ => exact ⟨nofun, ih⟩

theorem not_mem_of_pointer (h : BuiltWith .pointer id ty) : '&' ∉ ty.markers := by
  induction h with
  | raw => exact List.not_mem_nil
  | layer _ ih => simpa [markers] using ih
  | const _ ih => rwa [markers_toConst]

theorem not_mem_of_reference (h : BuiltWith .reference id ty) : '*' ∉ ty.markers := by
  induction h with
  | raw => exact List.not_mem_nil
  | layer _ ih => simpa [markers] using ih
  | const _ ih => rwa [markers_toConst]

end BuiltWith

end TypeRef

namespace Text

variable {cs ds : List Char}

theorem trim_eq_self_of_ends (hfirst : ∀ c ∈ cs.head?, isBlank c = false)
    (hlast : ∀ c ∈ cs.getLast?, isBlank c = false) : trim cs = cs := by
  have hstart : trimStart cs = cs := by
    cases cs with
    | nil => rfl
    | cons c cs => simp [trimStart, hfirst c rfl]
  rw [trim, hstart]
  exact dropEndWhile_eq_self_of_last hlast

end Text

/-- The text is a query, however it is spelled, for a name with markers. -/
structure Spells (name markers text : List Char) : Prop where
  ne_nil : text ≠ []
  first : ∀ c ∈ text.head?, Text.isBlank c = false
  last : ∀ c ∈ text.getLast?, Text.isBlank c = false
  no_dot : '.' ∉ text
  /-- No blank follows a `d`, as one does in `unsigned int`. -/
  chain : (Text.removeConst text).IsChain fun c d => c = 'd' → d ≠ ' '
  read : Text.dropBlanks (Text.removeConst text) = name ++ markers

namespace Spells

variable {name markers text : List Char}

theorem normalizeQueryChars_eq (h : Spells name markers text) :
    Name.normalizeQueryChars text = name ++ markers := by
  have hspelled : ¬ "unsigned ".toList <:+: Text.removeConst text := fun hi => by
    have hd : ['d', ' '] <:+: Text.removeConst text :=
      List.IsInfix.trans ⟨"unsigne".toList, [], rfl⟩ hi
    have hchain := h.chain.infix hd
    simp at hchain
  have hdot : '.' ∉ Text.removeConst text := fun hmem =>
    h.no_dot ((Text.removeConst_sublist text).subset hmem)
  rw [Name.normalizeQueryChars, Text.trim_eq_self_of_ends h.first h.last,
    Text.replaceAll_eq_self hspelled, Name.dotsToSeparators_eq_self hdot, h.read]

theorem of_isPlainQuery {query : String} (h : Name.IsPlainQuery query) :
    Spells query.toList [] query.toList where
  ne_nil he := h.ne_empty (String.toList_eq_nil_iff.mp he)
  first c hc := h.not_blank c (List.mem_of_mem_head? hc)
  last c hc := h.not_blank c (List.mem_of_mem_getLast? hc)
  no_dot := h.no_dot
  chain := by
    rw [h.no_const]
    refine (List.pairwise_of_forall_mem_list fun c _ d hd _ => ?_).isChain
    rintro rfl
    exact absurd (h.not_blank ' ' hd) (by decide)
  read := by rw [h.no_const, Text.dropBlanks_eq_self h.not_blank, List.append_nil]

theorem marker (h : Spells name markers text) {c : Char} (hc : TypeQuery.isMarker c = true) :
    Spells name (markers ++ [c]) (text ++ [c]) := by
  have hc' := TypeQuery.isMarker_iff.mp hc
  have hblank := TypeQuery.isBlank_of_isMarker hc
  have hident := TypeQuery.isIdentChar_of_isMarker hc
  have hremoved : Text.removeConst (text ++ [c]) = Text.removeConst text ++ [c] := by
    rw [Text.removeConst_append_cons hident, Text.removeConst_nil]
  refine ⟨by simp, fun d hd => ?_, fun d hd => ?_, fun hd => ?_, ?_, ?_⟩
  · rw [List.head?_append_of_ne_nil _ h.ne_nil] at hd
    exact h.first d hd
  · obtain rfl : c = d := by simpa using hd
    exact hblank
  · obtain hd | hd := List.mem_append.mp hd
    · exact h.no_dot hd
    · obtain rfl := List.mem_singleton.mp hd
      simp at hc'
  · rw [hremoved, List.isChain_append]
    refine ⟨h.chain, List.isChain_singleton _, fun d _ e he _ => ?_⟩
    obtain rfl : c = e := by simpa using he
    obtain rfl | rfl := hc' <;> decide
  · rw [hremoved, Text.dropBlanks_append, h.read, Text.dropBlanks_eq_self (by simpa using hblank),
      List.append_assoc]

theorem constBefore (h : Spells name markers text) :
    Spells name markers ("const ".toList ++ text) := by
  have hremoved : Text.removeConst ("const ".toList ++ text) = ' ' :: Text.removeConst text := by
    have hsplit : "const ".toList ++ text = "const".toList ++ ' ' :: text := rfl
    rw [hsplit, Text.removeConst_append_cons (by decide), Text.removeConst_keyword, List.nil_append]
  refine ⟨by simp, fun c hc => ?_, fun c hc => ?_, fun hc => ?_, ?_, ?_⟩
  · obtain rfl : 'c' = c := by simpa using hc
    decide
  · rw [List.getLast?_append_of_ne_nil _ h.ne_nil] at hc
    exact h.last c hc
  · obtain hc | hc := List.mem_append.mp hc
    · exact absurd hc (by decide)
    · exact h.no_dot hc
  · rw [hremoved, List.isChain_cons]
    exact ⟨fun _ _ hd => absurd hd (by decide), h.chain⟩
  · rw [hremoved, ← h.read]
    rfl

theorem constBehind (h : Spells name markers text) (hpointer : text.getLast? = some '*') :
    Spells name markers (text ++ " const".toList) := by
  have hremoved : Text.removeConst (text ++ " const".toList) = Text.removeConst text ++ [' '] := by
    have hsplit : text ++ " const".toList = text ++ ' ' :: "const".toList := rfl
    rw [hsplit, Text.removeConst_append_cons (by decide), Text.removeConst_keyword]
  have hlast : (Text.removeConst text).getLast? = some '*' := by
    obtain ⟨front, rfl⟩ := List.getLast?_eq_some_iff.mp hpointer
    rw [Text.removeConst_append_cons (by decide)]
    simp
  refine ⟨by simp, fun c hc => ?_, fun c hc => ?_, fun hc => ?_, ?_, ?_⟩
  · rw [List.head?_append_of_ne_nil _ h.ne_nil] at hc
    exact h.first c hc
  · obtain rfl : 't' = c := by simpa using hc
    decide
  · obtain hc | hc := List.mem_append.mp hc
    · exact h.no_dot hc
    · exact absurd hc (by decide)
  · rw [hremoved, List.isChain_append, hlast]
    refine ⟨h.chain, List.isChain_singleton _, fun c hc _ _ hd => ?_⟩
    obtain rfl := Option.some.inj hc
    exact absurd hd (by decide)
  · rw [hremoved, Text.dropBlanks_append, h.read]
    exact List.append_nil _

theorem renderConst {ty : TypeRef} {text : String} (h : Spells name markers text.toList)
    (hpointer : "const ".toList <+: text.toList → ty.isReference = false →
      text.toList.getLast? = some '*') :
    Spells name markers (TypeRef.renderConst ty text).toList := by
  rw [TypeRef.renderConst]
  split
  · rw [String.toList_append]
    exact h.constBefore
  · next hprefix =>
    split
    · exact h
    · next hreference =>
      rw [String.toList_append]
      exact h.constBehind (hpointer (by simpa using hprefix) (by simpa using hreference))

/-- The written form of a type spells its name and its markers, whatever consts it has. -/
theorem render {spelling : TypeId → String} {ty : TypeRef}
    (hq : Name.IsPlainQuery (spelling ty.base)) (h : ty.Unstacked) :
    Spells (spelling ty.base).toList ty.markers (ty.render spelling).toList := by
  induction ty with
  | raw => exact of_isPlainQuery hq
  | pointer inner ih | reference inner ih =>
    rw [TypeRef.render, String.toList_append]
    exact (ih hq h).marker (by decide)
  | const inner ih =>
    obtain ⟨htop, hinner⟩ := h
    have hspells := ih hq hinner
    cases inner with
    | const inner => exact absurd rfl (htop inner)
    | raw id =>
      -- the name itself does not begin with the keyword and a blank
      refine hspells.renderConst fun hprefix _ => absurd (hq.not_blank ' ' ?_) (by decide)
      exact hprefix.subset (show ' ' ∈ "const ".toList by decide)
    | pointer inner =>
      exact hspells.renderConst fun _ _ => by simp [TypeRef.render, String.toList_append]
    | reference inner => exact hspells.renderConst fun _ hinner => by cases hinner

end Spells

namespace Name

/-- What may stand between template brackets so that queries keep it: as many brackets are closed as
are opened, and there are no blanks, no dots, and no keyword `const`. -/
structure IsArgumentText (text : List Char) : Prop where
  not_blank : ∀ c ∈ text, Text.isBlank c = false
  no_dot : '.' ∉ text
  no_const : Text.removeConst text = text
  balanced : text.count '<' = text.count '>'

namespace IsArgumentText

variable {text rest : List Char}

theorem nil : IsArgumentText [] := ⟨fun _ => nofun, List.not_mem_nil, rfl, rfl⟩

theorem of_isPlainQuery {query : String} (h : IsPlainQuery query)
    (hb : query.toList.count '<' = query.toList.count '>') : IsArgumentText query.toList :=
  ⟨h.not_blank, h.no_dot, h.no_const, hb⟩

theorem append_cons (h : IsArgumentText text) (h' : IsArgumentText rest) {c : Char}
    (hc : c ∈ [',', '*', '&']) : IsArgumentText (text ++ c :: rest) := by
  have hplain : Text.isIdentChar c = false ∧ Text.isBlank c = false ∧ c ≠ '.' ∧ c ≠ '<' ∧
      c ≠ '>' := by
    obtain rfl | rfl | rfl : c = ',' ∨ c = '*' ∨ c = '&' := by simpa using hc
    all_goals decide
  obtain ⟨hident, hblank, hdot, hopen, hclose⟩ := hplain
  refine ⟨fun d hd => ?_, fun hd => ?_, ?_, ?_⟩
  · obtain hd | hd | hd : d ∈ text ∨ d = c ∨ d ∈ rest := by simpa using hd
    · exact h.not_blank d hd
    · exact hd ▸ hblank
    · exact h'.not_blank d hd
  · obtain hd | hd | hd : '.' ∈ text ∨ '.' = c ∨ '.' ∈ rest := by simpa using hd
    · exact h.no_dot hd
    · exact hdot hd.symm
    · exact h'.no_dot hd
  · rw [Text.removeConst_append_cons hident, h.no_const, h'.no_const]
  · rw [List.count_append, List.count_append, List.count_cons_of_ne hopen,
      List.count_cons_of_ne hclose, h.balanced, h'.balanced]

theorem render {spelling : TypeId → String} {ty : TypeRef} (hconst : ty.isConst = false)
    (h : IsArgumentText (spelling ty.base).toList) :
    IsArgumentText (ty.render spelling).toList := by
  induction ty with
  | raw id => exact h
  | const inner => cases hconst
  | pointer inner ih | reference inner ih =>
    rw [TypeRef.render, String.toList_append]
    exact (ih hconst h).append_cons nil (by decide)

theorem intercalate {texts : List String} (h : ∀ text ∈ texts, IsArgumentText text.toList) :
    IsArgumentText (",".intercalate texts).toList := by
  induction texts with
  | nil => exact nil
  | cons first rest ih =>
    obtain ⟨hfirst, hrest⟩ := List.forall_mem_cons.mp h
    cases rest with
    | nil => simpa using hfirst
    | cons second rest =>
      rw [String.intercalate_cons_cons, String.append_assoc, String.toList_append,
        String.toList_append]
      exact hfirst.append_cons (ih hrest) (c := ',') (by decide)

end IsArgumentText

/-- A part of a path of types: a word, or a word with template arguments. -/
inductive IsTypePart : String → Prop
  | word {name : String} (word : IsWord name) : IsTypePart name
  | specialization {base inner : String} (word : IsWord base)
      (arguments : IsArgumentText inner.toList) : IsTypePart (base ++ "<" ++ inner ++ ">")

namespace IsTypePart

variable {part base inner : String}

theorem toList_specialization (base inner : String) :
    (base ++ "<" ++ inner ++ ">").toList = base.toList ++ '<' :: (inner.toList ++ ['>']) := by
  simp [String.toList_append]

theorem isPlainQuery (h : IsTypePart part) : IsPlainQuery part := by
  cases h with
  | word word => exact word.isPlainQuery
  | @specialization base inner word arguments =>
    have hbase := word.isPlainQuery
    have hmem : ∀ c ∈ (base ++ "<" ++ inner ++ ">").toList,
        c ∈ base.toList ∨ c ∈ inner.toList ∨ c ∈ ['<', '>'] := by
      intro c hc
      rw [toList_specialization] at hc
      simp only [List.mem_append, List.mem_cons] at hc ⊢
      tauto
    refine ⟨⟨by simp, fun c hc => ?_, fun hc => ?_⟩, ?_⟩
    · obtain hc | hc | hc := hmem c hc
      · exact hbase.not_blank c hc
      · exact arguments.not_blank c hc
      · obtain rfl | rfl : c = '<' ∨ c = '>' := by simpa using hc
        all_goals decide
    · obtain hc | hc | hc := hmem _ hc
      · exact hbase.no_dot hc
      · exact arguments.no_dot hc
      · exact absurd hc (by decide)
    · rw [toList_specialization, Text.removeConst_append_cons (by decide),
        Text.removeConst_append_cons (by decide), hbase.no_const, arguments.no_const,
        Text.removeConst_nil]

theorem isPath (h : IsTypePart part) : Path.IsPath part := by
  cases h with
  | word word => exact word.isPart.toIsPath
  | @specialization base inner word arguments =>
    refine ⟨by simp, ?_, fun c hc => ?_⟩
    · have hbase := word.isPart.balanced
      have hinner := arguments.balanced
      rw [toList_specialization]
      simp only [List.count_append, List.count_cons, List.count_nil]
      simp
      omega
    · rw [toList_specialization, ← List.cons_append, ← List.append_assoc,
        List.getLast?_concat] at hc
      obtain rfl := Option.some.inj hc
      decide

end IsTypePart

end Name

namespace Model

variable {p : Policy} {m : Model} {id : TypeId} {names : List String} {ty : TypeRef}

/-- Typedefs and aliases have no separators in their names, and types none outside of brackets. -/
def SeparatorsEnclosed (m : Model) : Prop :=
  ∀ node ∈ m.nodes.toList, ∀ a ∈ node.scope?,
    (∀ name ∈ a.types.keys, Path.splitFirst? name = none) ∧
      ∀ name ∈ a.typeAliases.keys, ¬ "::".toList <:+: name.toList

instance (m : Model) : Decidable m.SeparatorsEnclosed := by
  unfold SeparatorsEnclosed; infer_instance

theorem SeparatorsEnclosed.undivided (hm : m.SeparatorsEnclosed) : m.NamesUndivided := fun _ _ =>
  name_of_forall fun node hnode a ha => by
    obtain ⟨htypes, haliases⟩ := hm node hnode a ha
    refine ⟨htypes, fun name hname => ?_⟩
    by_contra hcut
    obtain ⟨⟨head, tail⟩, hcut⟩ := Option.ne_none_iff_exists'.mp hcut
    refine haliases name hname ⟨head.toList, tail.toList, ?_⟩
    rw [Path.splitFirst?_eq_some hcut]
    simp

theorem isTypePart_specializationName {template : TypeId} {arguments : List TypeRef}
    (hw : Name.IsWord (m.node template).name)
    (h : ∀ ty ∈ arguments, ty.isConst = false ∧ Name.IsArgumentText (m.fullName ty.base).toList) :
    Name.IsTypePart (m.specializationName template arguments) := by
  refine .specialization hw (.intercalate fun text htext => ?_)
  obtain ⟨ty, hty, rfl⟩ := List.mem_map.mp htext
  exact .render (h ty hty).1 (h ty hty).2

theorem Attached.isPart_of_isTypePart (ha : m.Attached id names) (ht : m.IsTree)
    (hm : m.NamesUndivided) (hnames : ∀ name ∈ names, Name.IsTypePart name) :
    ∀ name ∈ names, Path.IsPart name := by
  have hundivided : ∀ name ∈ names, Path.splitFirst? name = none :=
    ha.forall_name ht fun _ _ _ hl => hm.of_type? hl
  exact fun name hname => ⟨(hnames name hname).isPath, hundivided name hname⟩

/-- A type is printed and looked up again: what comes back is the type without const, and the model
is the same as before. -/
theorem Reachable.lookupType_signature (h : Reachable p m) (hm : m.SeparatorsEnclosed)
    (ha : m.Attached id names) (hr : id ≠ .root) (hnames : ∀ name ∈ names, Name.IsTypePart name)
    (htemplate : (m.node id).isTemplate = false)
    (hty : TypeRef.BuiltWith .pointer id ty ∨ TypeRef.BuiltWith .reference id ty) :
    lookupType .root (m.signature ty) .owners m = .ok ty.withoutConst m := by
  have ht := h.sound.isTree
  have hparts := ha.isPart_of_isTypePart ht hm.undivided hnames
  have hplain := ha.isPlainQuery ht h.coherent hr fun name hname => (hnames name hname).isPlainQuery
  have hbase : ty.base = id := by
    obtain hty | hty := hty
    · exact hty.base_eq (.inl rfl)
    · exact hty.base_eq (.inr rfl)
  have hunstacked : ty.Unstacked := hty.elim (·.unstacked (.inl rfl)) (·.unstacked (.inr rfl))
  have hspells : Spells (m.fullName id).toList ty.markers (m.signature ty).toList := by
    subst hbase
    exact .render hplain hunstacked
  have hkind : '*' ∉ ty.markers ∨ '&' ∉ ty.markers :=
    hty.symm.imp (·.not_mem_of_reference) (·.not_mem_of_pointer)
  have hnormal : Name.normalizeQuery (m.signature ty) =
      m.fullName id ++ String.ofList ty.markers := by
    rw [Name.normalizeQuery, hspells.normalizeQueryChars_eq, String.ofList_append,
      String.ofList_toList]
  have hsplit : TypeQuery.split (Name.normalizeQuery (m.signature ty)) =
      .ok (m.fullName id, ty.markers) := by
    rw [hnormal]
    exact (ha.isPath ht h.coherent hr hparts).split TypeRef.isMarker_of_mem_markers hkind
  have hfind : m.findPlain .root (m.fullName id) .owners true = some (.raw id) :=
    ha.findPlain_fullName ht h.coherent hr hm.undivided hparts
  have hne : Name.normalizeQuery (m.signature ty) ≠ "" := by
    rw [hnormal]
    simp [hplain.ne_empty]
  have hits : Hits m .root .owners False .whole (m.signature ty) ty.withoutConst := by
    rw [← TypeRef.applyMarkers_markers, hbase]
    exact .query hne hsplit (.asWritten hfind) (by simp [TypeRef.base, htemplate])
  exact hits.lookupType_eq

/-- A class in the class that the template `V` makes from a pointer to `n::A`. -/
theorem lookupType_signature_of_member : ∃ m ty, Reachable .namesPlain m ∧
    m.signature ty = "const V<n::A*>::Inner* const*" ∧
    lookupType .root (m.signature ty) .owners m = .ok (.pointer (.pointer (.raw ⟨6⟩))) m := by
  let actions : List Action :=
    [.lookupType .root "V<n::A*>" .owners,
     .addType ⟨5⟩ (declaration .classType "" "Inner") true]
  have h := reachable_twoClasses actions (by
    simp only [actions, List.forall_mem_cons, List.not_mem_nil, false_imp_iff, implies_true,
      and_true]
    exact ⟨fun _ => trivial, fun _ => isFresh_declaration (fun _ => by decide) fun _ => by decide⟩)
  set m := bare.afterAll (twoClasses ++ actions) with hm
  have hmade : m.Attached ⟨5⟩ ([] ++ [_]) := .member .root (by decide +kernel)
  have hinner : m.Attached ⟨6⟩ ([] ++ [_] ++ [_]) := .member hmade (by decide +kernel)
  have hname : (m.node ⟨5⟩).name = m.specializationName ⟨1⟩ [.pointer (.raw ⟨4⟩)] := by
    decide +kernel
  have hquery : Name.IsPlainQuery (m.fullName ⟨4⟩) := by
    have hn : Name.IsWord "n" := by decide +kernel
    have hA : Name.IsWord "A" := by decide +kernel
    rw [show m.fullName ⟨4⟩ = "n" ++ "::" ++ "A" by decide +kernel]
    exact hn.isPlainQuery.join hA.isPlainQuery
  have harguments : Name.IsArgumentText (m.fullName ⟨4⟩).toList :=
    .of_isPlainQuery hquery (by decide +kernel)
  have hparts : ∀ name ∈ [] ++ [(m.node ⟨5⟩).name] ++ [(m.node ⟨6⟩).name],
      Name.IsTypePart name := by
    simp only [List.nil_append, List.singleton_append, List.forall_mem_cons, List.not_mem_nil,
      false_imp_iff, implies_true, and_true]
    refine ⟨?_, .word (by decide +kernel)⟩
    rw [hname]
    refine isTypePart_specializationName (by decide +kernel) fun ty hty => ?_
    obtain rfl := List.mem_singleton.mp hty
    exact ⟨rfl, harguments⟩
  refine ⟨m, .pointer (.const (.pointer (.const (.raw ⟨6⟩)))), h, by decide +kernel, ?_⟩
  exact h.lookupType_signature (by decide +kernel) hinner (by decide) hparts (by decide +kernel)
    (.inl (.layer (.const (.layer (.const .raw)))))

/-- The class `Inner` is in the class that `V` makes from `x<`. The bracket in the name of `x<` is
closed by that of the arguments, and `V<x<>::Inner` has no separator outside of brackets. -/
theorem lookupType_signature_fails : ∃ m, Reachable .free m ∧
    (∀ node ∈ m.nodes.toList, ∀ a ∈ node.scope?, ∀ name ∈ a.typeAliases.keys,
      ¬ "::".toList <:+: name.toList) ∧
    m.Attached ⟨4⟩ ["V<x<>", "Inner"] ∧ (m.node ⟨4⟩).isTemplate = false ∧
    (m.node ⟨3⟩).specialization = some ⟨⟨1⟩, [.raw ⟨2⟩]⟩ ∧ m.fullName ⟨2⟩ = "x<" ∧
    m.signature (.raw ⟨4⟩) = "V<x<>::Inner" ∧
    ∃ failure m', lookupType .root "V<x<>::Inner" .owners m = .error failure m' := by
  let actions : List Action :=
    [.addTemplate .root "V" ⟨"plain", fun _ _ => .finish⟩,
     .addType .root (declaration .classType "" "x<") true,
     .addTypedef .root "Z" (.raw ⟨2⟩),
     .lookupType .root "V<Z>" .owners,
     .addType ⟨3⟩ (declaration .classType "" "Inner") true]
  have h : Reachable .free (bare.afterAll actions) := by
    refine reachable_bare.afterAll ?_
    simp only [actions, List.forall_mem_cons, List.not_mem_nil, false_imp_iff, implies_true,
      and_true]
    exact ⟨fun _ => ⟨nofun, fun _ _ => trivial⟩, fun _ => isFresh_declaration nofun nofun,
      fun _ => ⟨nofun, nofun⟩, fun _ => trivial, fun _ => isFresh_declaration nofun nofun⟩
  set m := bare.afterAll actions with hm
  have hnames : (m.node ⟨3⟩).name = "V<x<>" ∧ (m.node ⟨4⟩).name = "Inner" := by decide +kernel
  have hmade : m.Attached ⟨3⟩ ([] ++ [_]) := .member .root (by decide +kernel)
  have hinner : m.Attached ⟨4⟩ ([] ++ [_] ++ [_]) := .member hmade (by decide +kernel)
  rw [hnames.1, hnames.2] at hinner
  obtain ⟨failure, m', he, -⟩ := sizeAfterFailure_eq_some (m := m) (n := 5)
    (x := lookupType .root "V<x<>::Inner" .owners) (by decide +kernel)
  exact ⟨m, h, by decide +kernel, hinner, by decide +kernel, by decide +kernel, by decide +kernel,
    by decide +kernel, failure, m', he⟩

end Model

end ApiModel
