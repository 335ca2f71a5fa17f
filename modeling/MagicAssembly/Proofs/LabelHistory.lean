import MagicAssembly.Labels
import Mathlib.Data.List.Induction

namespace MagicAssembly

/-- A label and what it is to be defined as. -/
structure Declaration where
  scope : Scope
  name : String
  label : Label
  deriving DecidableEq

namespace Declaration

def key (d : Declaration) : Scope × String :=
  (d.scope, d.name)

/-- The label that was declared first under the name in the scope. -/
def first? (ds : List Declaration) (scope : Scope) (name : String) : Option Label :=
  (ds.find? fun d => d.key = (scope, name)).map label

theorem first_concat (ds : List Declaration) (d : Declaration) (scope : Scope) (name : String) :
    first? (ds ++ [d]) scope name =
      (first? ds scope name).or (if d.key = (scope, name) then some d.label else none) := by
  simp only [first?, List.find?_append, Option.map_or, List.find?_singleton, decide_eq_true_eq]
  split <;> rfl

theorem eq_iff {c d : Declaration} : c = d ↔ d.key = c.key ∧ d.label = c.label := by
  obtain ⟨scope, name, label⟩ := c
  obtain ⟨scope', name', label'⟩ := d
  simp only [key, mk.injEq, Prod.mk.injEq]
  grind

end Declaration

namespace Labels

def declare (ls : Labels) (d : Declaration) : Except LabelError Labels :=
  ls.define d.scope d.name d.label

/-- The error of a declaration that is refused. -/
def refusal? (ls : Labels) (d : Declaration) : Option LabelError :=
  match ls.declare d with
  | .error e => some e
  | .ok _ => none

/-- A declaration that is refused changes nothing. -/
def call (ls : Labels) (d : Declaration) : Labels :=
  (ls.declare d).toOption.getD ls

/-- The labels after all the declarations, in order. -/
def calls (ls : Labels) (ds : List Declaration) : Labels :=
  ds.foldl call ls

/-- The declarations in order, each with the error if it is refused. -/
def history : Labels → List Declaration → List (Declaration × Option LabelError)
  | _, [] => []
  | ls, d :: ds => (d, ls.refusal? d) :: (ls.call d).history ds

theorem ext_get {ls ls' : Labels} (h : ∀ scope name, ls.get? scope name = ls'.get? scope name) :
    ls = ls' := by
  obtain ⟨table⟩ := ls
  obtain ⟨table'⟩ := ls'
  exact congrArg mk (Std.ExtHashMap.ext_getElem? fun k => h k.1 k.2)

section

variable (ls : Labels) (d : Declaration)

theorem refusal_eq :
    ls.refusal? d = (ls.get? d.scope d.name).map fun first => ⟨d.name, first.line⟩ := by
  simp only [refusal?, declare, define]
  cases ls.get? d.scope d.name <;> rfl

theorem refusal_eq_some_iff {e : LabelError} :
    ls.refusal? d = some e ↔ ls.declare d = .error e := by
  unfold refusal?
  cases ls.declare d <;> simp

section

variable {ls d}

theorem call_of_taken {first : Label} (taken : ls.get? d.scope d.name = some first) :
    ls.call d = ls := by
  simp only [call, declare, define, taken]
  rfl

theorem call_of_new (new : ls.get? d.scope d.name = none) :
    ls.call d = ⟨ls.table.insert d.key d.label⟩ := by
  rw [call, declare, define_of_new new]
  rfl

end

theorem get_call (scope : Scope) (name : String) :
    (ls.call d).get? scope name =
      (ls.get? scope name).or (if d.key = (scope, name) then some d.label else none) := by
  cases hget : ls.get? d.scope d.name with
  | some first =>
    rw [call_of_taken hget]
    split
    · next hkey =>
      obtain ⟨rfl, rfl⟩ := Prod.mk.inj hkey
      rw [hget]
      rfl
    · rw [Option.or_none]
  | none =>
    have hlookup : (ls.call d).get? scope name =
        if d.key = (scope, name) then some d.label else ls.get? scope name := by
      rw [call_of_new hget]
      exact get_define (define_of_new hget d.label) scope name
    rw [hlookup]
    split
    · next hkey =>
      obtain ⟨rfl, rfl⟩ := Prod.mk.inj hkey
      rw [hget, Option.none_or]
    · rw [Option.or_none]

theorem size_call :
    (ls.call d).size = ls.size + if (ls.refusal? d).isNone then 1 else 0 := by
  rw [refusal_eq]
  cases hget : ls.get? d.scope d.name with
  | some first =>
    rw [call_of_taken hget]
    rfl
  | none =>
    have hnew : d.key ∉ ls.table := by
      rw [Std.ExtHashMap.mem_iff_isSome_getElem?, Declaration.key, ← get?, hget]
      simp
    rw [call_of_new hget, size, Std.ExtHashMap.size_insert, if_neg hnew]
    rfl

theorem calls_concat (ds : List Declaration) : ls.calls (ds ++ [d]) = (ls.calls ds).call d :=
  List.foldl_append

theorem history_append (ds es : List Declaration) :
    ls.history (ds ++ es) = ls.history ds ++ (ls.calls ds).history es := by
  induction ds generalizing ls with
  | nil => rfl
  | cons d ds ih =>
    rw [List.cons_append, history, ih, history, List.cons_append, calls, calls, List.foldl_cons]

end

section

variable {a b : Declaration} (h : a.key ≠ b.key) (ls : Labels)

include h

/-- A declaration is not affected by one of another name or in the other scope. -/
theorem refusal_call : (ls.call a).refusal? b = ls.refusal? b := by
  rw [refusal_eq, refusal_eq, get_call, ← Declaration.key, if_neg h, Option.or_none]

theorem call_comm : (ls.call a).call b = (ls.call b).call a := by
  apply ext_get
  intro scope name
  simp only [get_call]
  cases ls.get? scope name with
  | some label => rfl
  | none => grind

/-- Interchanged, the two have the same answers, and so has all that follows. -/
theorem history_interchange (after : List Declaration) :
    ∃ x y rest, ls.history (a :: b :: after) = (a, x) :: (b, y) :: rest ∧
      ls.history (b :: a :: after) = (b, y) :: (a, x) :: rest := by
  refine ⟨ls.refusal? a, ls.refusal? b, ((ls.call a).call b).history after, ?_, ?_⟩
  · simp only [history, refusal_call h]
  · simp only [history, refusal_call h.symm, call_comm h]

end

section

variable (ds : List Declaration)

theorem get_calls (scope : Scope) (name : String) :
    (empty.calls ds).get? scope name = Declaration.first? ds scope name := by
  induction ds using List.reverseRecOn with
  | nil => exact get_empty scope name
  | append_singleton ds d ih =>
    rw [calls_concat, get_call, ih, Declaration.first_concat]

/-- A declaration is accepted if it is the first of its name in its scope. -/
theorem accepted_iff (c : Declaration) :
    (c, none) ∈ empty.history ds ↔ Declaration.first? ds c.scope c.name = some c.label := by
  induction ds using List.reverseRecOn with
  | nil => simp [history, Declaration.first?]
  | append_singleton ds d ih =>
    have hrefusal : (empty.calls ds).refusal? d = none ↔
        Declaration.first? ds d.scope d.name = none := by
      rw [refusal_eq, get_calls, Option.map_eq_none_iff]
    rw [history_append, List.mem_append, ih, Declaration.first_concat, Option.or_eq_some_iff]
    refine or_congr_right ?_
    simp only [history, List.mem_singleton, Prod.mk.injEq, Option.ite_none_right_eq_some,
      Option.some.injEq]
    constructor
    · rintro ⟨rfl, hnone⟩
      exact ⟨hrefusal.mp hnone.symm, rfl, rfl⟩
    · rintro ⟨hnew, hkey, hlabel⟩
      obtain rfl := Declaration.eq_iff.mpr ⟨hkey, hlabel⟩
      exact ⟨rfl, (hrefusal.mpr hnew).symm⟩

theorem size_calls : (empty.calls ds).size = (empty.history ds).countP fun x => x.2.isNone := by
  induction ds using List.reverseRecOn with
  | nil => exact size_empty
  | append_singleton ds d ih =>
    rw [calls_concat, size_call, ih, history_append, List.countP_append]
    simp only [history, List.countP_singleton]

end

/-- What is defined first stays: a declaration is refused if its name is taken in its scope, and the
error tells where. Other declarations do not depend on their order. -/
theorem keeps_first (ds : List Declaration) :
    let ls := empty.calls ds
    (∀ d e, ls.declare d = .error e ↔
      ∃ c, (c, none) ∈ empty.history ds ∧ c.key = d.key ∧ e = ⟨d.name, c.label.line⟩) ∧
    (∀ d e, ls.declare d = .error e → ls.call d = ls) ∧
    (∀ c, (c, none) ∈ empty.history ds ↔ Declaration.first? ds c.scope c.name = some c.label) ∧
    (∀ scope name, ls.get? scope name = Declaration.first? ds scope name) ∧
    (∀ name, ls.resolve? name =
      match Declaration.first? ds .file name, Declaration.first? ds .global name with
      | some label, _ | none, some label => some label.address
      | none, none => none) ∧
    ls.size = ((empty.history ds).countP fun x => x.2.isNone) ∧
    ∀ before a b after, ds = before ++ a :: b :: after → a.key ≠ b.key →
      empty.calls (before ++ b :: a :: after) = ls ∧
      ∃ front x y rest, empty.history ds = front ++ (a, x) :: (b, y) :: rest ∧
        empty.history (before ++ b :: a :: after) = front ++ (b, y) :: (a, x) :: rest := by
  intro ls
  refine ⟨fun d e => ?_, fun d e h => ?_, accepted_iff ds, get_calls ds, fun name => ?_,
    size_calls ds, ?_⟩
  · rw [← refusal_eq_some_iff, refusal_eq, get_calls, Option.map_eq_some_iff]
    constructor
    · rintro ⟨first, hfirst, rfl⟩
      exact ⟨⟨d.scope, d.name, first⟩, (accepted_iff ds _).mpr hfirst, rfl, rfl⟩
    · rintro ⟨⟨scope, name, label⟩, hmem, hkey, rfl⟩
      obtain ⟨rfl, rfl⟩ := Prod.mk.inj hkey
      exact ⟨label, (accepted_iff ds _).mp hmem, rfl⟩
  · rw [call, h]
    rfl
  · rw [resolve?, get_calls, get_calls]
    cases Declaration.first? ds .file name <;> cases Declaration.first? ds .global name <;> rfl
  · rintro before a b after rfl h
    obtain ⟨x, y, rest, hab, hba⟩ := history_interchange h (empty.calls before) after
    refine ⟨?_, empty.history before, x, y, rest, ?_, ?_⟩
    · simp only [ls, calls, List.foldl_append, List.foldl_cons, call_comm h]
    · rw [history_append, hab]
    · rw [history_append, hba]

/-- One name in both scopes, and once more in the scope of the file. -/
def threeLoops : List Declaration :=
  [⟨.global, "loop", ⟨0x00400100, 3⟩⟩, ⟨.file, "loop", ⟨0x00400020, 9⟩⟩,
   ⟨.file, "loop", ⟨0x00400040, 12⟩⟩]

theorem threeLoops_keeps_first :
    let ls := empty.calls threeLoops
    let next : Declaration := ⟨.file, "loop", ⟨0x00400060, 15⟩⟩
    ls.declare next = .error ⟨"loop", 9⟩ ∧ ls.call next = ls ∧
      ls.resolve? "loop" = some 0x00400020 ∧
      ∃ a b c, threeLoops = [a, b, c] ∧ a.key ≠ b.key ∧ empty.calls [b, a, c] = ls := by
  intro ls next
  obtain ⟨hrefused, hkept, haccepted, -, hresolve, -, hinterchange⟩ := keeps_first threeLoops
  have hfirst : (⟨.file, "loop", ⟨0x00400020, 9⟩⟩, none) ∈ empty.history threeLoops :=
    (haccepted _).mpr rfl
  have hnext : ls.declare next = .error ⟨"loop", 9⟩ :=
    (hrefused next _).mpr ⟨_, hfirst, rfl, rfl⟩
  exact ⟨hnext, hkept next _ hnext, hresolve "loop", _, _, _, rfl, by decide,
    (hinterchange [] _ _ _ rfl (by decide)).1⟩

end Labels

end MagicAssembly
