import ApiModel.Proofs.DeclaredNames

/-!
Declarations that give an empty name. That a text is not empty is seen to before its parts are taken
apart, so a text which ends in a separator is accepted, and what it declares has the path in front
of the separator and the empty name. The main statement here says for which texts that happens.
-/

namespace ApiModel

namespace Path

/-- A text that begins at the given depth ends in a separator outside of brackets: in an even number
of colons, in front of which all brackets are closed. -/
def EndsInSeparatorFrom (depth : Int) (cs : List Char) : Prop :=
  ∃ front n, cs = front ++ List.replicate (2 * n + 2) ':' ∧ front.getLast? ≠ some ':' ∧
    depth + front.count '<' = front.count '>'

def EndsInSeparator (path : String) : Prop := EndsInSeparatorFrom 0 path.toList

variable {depth : Int} {c : Char} {cs : List Char}

theorem not_endsInSeparatorFrom_nil : ¬ EndsInSeparatorFrom depth [] := by
  rintro ⟨front, n, he, -⟩
  have hlength := congrArg List.length he
  simp at hlength

/-- A separator in front is the one at the end, or does not matter. -/
theorem endsInSeparatorFrom_separator :
    EndsInSeparatorFrom depth (':' :: ':' :: cs) ↔
      EndsInSeparatorFrom depth cs ∨ cs = [] ∧ depth = 0 := by
  constructor
  · rintro ⟨front, n, he, hlast, hdepth⟩
    match front with
    | [] =>
      have hcs : cs = List.replicate (2 * n) ':' := by simpa [List.replicate_succ] using he
      cases n with
      | zero => exact .inr ⟨hcs, by simpa using hdepth⟩
      | succ n => exact .inl ⟨[], n, hcs, hlast, hdepth⟩
    | [d] =>
      obtain ⟨rfl, -⟩ := List.cons_eq_cons.mp he
      exact absurd rfl hlast
    | d :: d' :: front =>
      rw [List.cons_append, List.cons_append] at he
      obtain ⟨rfl, rfl, rfl⟩ : ':' = d ∧ ':' = d' ∧ cs = front ++ _ := by simpa using he
      refine .inl ⟨front, n, rfl, fun h => hlast ?_, by simpa using hdepth⟩
      simp [List.getLast?_cons, h]
  · rintro (⟨front, n, rfl, hlast, hdepth⟩ | ⟨rfl, rfl⟩)
    · cases hf : front with
      | nil =>
        rw [hf] at hdepth
        refine ⟨[], n + 1, ?_, hf ▸ hlast, by simpa using hdepth⟩
        simp [List.replicate_succ, Nat.mul_add]
      | cons d rest =>
        refine ⟨':' :: ':' :: front, n, by simp [hf], ?_, by simpa using hdepth⟩
        rw [hf] at hlast ⊢
        simpa [List.getLast?_cons] using hlast
    · exact ⟨[], 0, rfl, by simp, by simp⟩

theorem endsInSeparatorFrom_cons (h : ∀ rest, c = ':' → cs ≠ ':' :: rest) :
    EndsInSeparatorFrom depth (c :: cs) ↔ EndsInSeparatorFrom (depth + bracketStep c) cs := by
  have hcount : ∀ front : List Char,
      depth + (c :: front).count '<' = (c :: front).count '>' ↔
        depth + bracketStep c + front.count '<' = front.count '>' := by
    intro front
    unfold bracketStep
    by_cases hopen : c = '<'
    · simp [hopen]
      omega
    · by_cases hclose : c = '>'
      · simp [hclose]
        omega
      · simp [hopen, hclose]
  constructor
  · rintro ⟨front, n, he, hlast, hdepth⟩
    cases front with
    | nil =>
      obtain ⟨hc, hcs⟩ := List.cons_eq_cons.mp he
      exact absurd hcs (h _ hc)
    | cons d front =>
      rw [List.cons_append] at he
      obtain ⟨rfl, rfl⟩ := List.cons_eq_cons.mp he
      refine ⟨front, n, rfl, fun hcolon => hlast ?_, (hcount front).mp hdepth⟩
      simp [List.getLast?_cons, hcolon]
  · rintro ⟨front, n, rfl, hlast, hdepth⟩
    refine ⟨c :: front, n, rfl, ?_, (hcount front).mpr hdepth⟩
    rw [List.getLast?_cons]
    cases hf : front.getLast? with
    | some d => simpa [hf] using hlast
    | none =>
      obtain rfl := List.getLast?_eq_none_iff.mp hf
      exact fun hc => h _ (by simpa using hc) rfl

theorem cutLast_nil_iff :
    (∃ init, cutLast depth cs = some (init, [])) ↔ EndsInSeparatorFrom depth cs := by
  fun_induction cutLast depth cs with
  | case1 depth cs init last hcut ih =>
    rw [endsInSeparatorFrom_separator, ← ih]
    have hne : cs ≠ [] := fun he => by simp [he, cutLast] at hcut
    simp [hne, hcut]
  | case2 cs hcut ih =>
    rw [endsInSeparatorFrom_separator, ← ih]
    simp [hcut]
  | case3 depth cs hcut hdepth ih =>
    rw [endsInSeparatorFrom_separator, ← ih]
    simp [hcut, hdepth]
  | case4 depth c cs hc ih =>
    rw [endsInSeparatorFrom_cons fun rest hcolon hcs => hc rest hcolon hcs, ← ih]
    simp
  | case5 => simp [not_endsInSeparatorFrom_nil]

theorem baseName_eq_empty_iff {path : String} (hne : path ≠ "") :
    baseName path = "" ↔ EndsInSeparator path := by
  rw [EndsInSeparator, ← cutLast_nil_iff, baseName]
  split
  · next init last hcut => simp [hcut]
  · next hcut => simp [hcut, hne]

end Path

/-- What was made of a declared text is the failure that it is no name, or an entity whose name is
empty exactly if the normal form of the text ends in a separator. -/
def Entity.Declares (text : String) (made : Except ModelError Entity) : Prop :=
  (∃ reason, made = .error (.invalidName text reason)) ∨
    ∃ path e, Name.normalize text = .ok path ∧ made = .ok e ∧
      (e.name = "" ↔ Path.EndsInSeparator path)

theorem Name.normalize_eq_error {text : String} {failure : ModelError}
    (h : normalize text = .error failure) : ∃ reason, failure = .invalidName text reason := by
  unfold normalize at h
  split at h
  · cases h
    exact ⟨_, rfl⟩
  · split at h
    · cases h
      exact ⟨_, rfl⟩
    · cases h

theorem Entity.declares_ofName (text : String) : Declares text (ofName text) := by
  cases hpath : Name.normalize text with
  | error failure =>
    obtain ⟨reason, rfl⟩ := Name.normalize_eq_error hpath
    exact .inl ⟨reason, by rw [ofName, hpath]; rfl⟩
  | ok path =>
    refine .inr ⟨path, _, hpath, by rw [ofName, hpath]; rfl, ?_⟩
    exact Path.baseName_eq_empty_iff (Name.normalize_eq_ok hpath).2

theorem Entity.declares_made {α : Type} {text : String} {make : Entity → α} {entity : α → Entity}
    (h : ∀ e, entity (make e) = e) :
    Declares text ((do return make (← ofName text) : Except ModelError α).map entity) := by
  have hsame : (do return make (← ofName text) : Except ModelError α).map entity = ofName text := by
    cases ofName text with
    | ok e => exact congrArg Except.ok (h e)
    | error failure => rfl
  rw [hsame]
  exact declares_ofName text

end ApiModel
