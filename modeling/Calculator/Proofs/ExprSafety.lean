import Calculator.Proofs.MachineCorrect
import Calculator.Proofs.PostfixCorrect

/-!
# Expressions that never fail

An expression of the grammar has a value, a number or a truth value, if its calls are saturated,
its keys are in place, and the names that it refers to are bound in an environment without keys.

The induction is over the tree. It carries along that no name has become unbound and that no key
has become bound (`Environment.Keeps`), since the part of a tree that is evaluated last meets the
environment that the `SET` calls before it have left.

## Key results

- `apply_ok_of_not_key`, `call_ok_of_not_key`: operators and functions on operands that are no keys
- `Safe.binary`, `Safe.call`, `Safe.assign`: one node of a tree
- `safe_of_keysInPlace`: a saturated tree with its keys in place has a value that is no key
- `ofInfix_evaluate_ok`: the tokens of such a tree are accepted, and evaluated to a value
-/

namespace Calculator

/-! ### Operands that are no keys -/

/-- What is no key counts as a number. -/
theorem Value.asNumber_ok_of_not_key {v : Value} (h : v.isKey = false) :
    ∃ x, v.asNumber = .ok x := by
  cases v with
  | number x => exact ⟨x, rfl⟩
  | bool b => exact ⟨_, rfl⟩
  | key name => exact nomatch h

/-- Operators do not fail on operands that are no keys. -/
theorem Operator.apply_ok_of_not_key (op : Operator) {a b : Value} (ha : a.isKey = false)
    (hb : b.isKey = false) : ∃ v, op.apply a b = .ok v ∧ v.isKey = false := by
  obtain ⟨x, hx⟩ := Value.asNumber_ok_of_not_key ha
  obtain ⟨y, hy⟩ := Value.asNumber_ok_of_not_key hb
  have happly : ∃ v, op.apply a b = .ok v := by
    -- `=` compares values of any kind; the other operators need numbers.
    by_cases heq : op = .equal
    · exact ⟨_, by rw [apply, if_pos heq]⟩
    · exact ⟨op.compute x y, by simp only [apply, if_neg heq, hx, hy]; rfl⟩
  obtain ⟨v, hv⟩ := happly
  exact ⟨v, hv, isKey_apply hv⟩

/-- Functions other than `SET` do not fail on arguments that are no keys, and bind nothing. -/
theorem Builtin.call_ok_of_not_key {b : Builtin} (hb : b ≠ .assign) {values : List Value}
    (hlength : values.length = b.arity) (hvalues : ∀ v ∈ values, v.isKey = false) :
    ∃ v, b.call values = .ok ⟨v, none⟩ ∧ v.isKey = false := by
  match b, values, hlength with
  | .max, [a, c], _ =>
    obtain ⟨x, hx⟩ := Value.asNumber_ok_of_not_key (hvalues a (by simp))
    obtain ⟨y, hy⟩ := Value.asNumber_ok_of_not_key (hvalues c (by simp))
    exact ⟨.number (greater x y), by simp only [call, hx, hy]; rfl, rfl⟩
  | .sqrt, [a], _ =>
    obtain ⟨x, hx⟩ := Value.asNumber_ok_of_not_key (hvalues a (by simp))
    exact ⟨.number x.sqrt, by simp only [call, hx]; rfl, rfl⟩
  | .choose, [p, a, c], _ =>
    refine ⟨if p.isTruthy then a else c, rfl, ?_⟩
    split
    · exact hvalues a (by simp)
    · exact hvalues c (by simp)
  | .assign, _, _ => exact absurd rfl hb

/-! ### Environments on the way -/

namespace Environment

/-- Whether every name that tokens refer to is bound. -/
def Covers (env : Environment) (ts : List Token) : Prop :=
  ∀ name, .reference name ∈ ts → (env.get? name).isSome

theorem covers_append {env : Environment} {ts us : List Token} :
    env.Covers (ts ++ us) ↔ env.Covers ts ∧ env.Covers us := by
  simp only [Covers, List.mem_append, or_imp, forall_and]

/-- Whether one environment still binds all names that another one binds, and none to a key. -/
structure Keeps (env env' : Environment) : Prop where
  keyFree : env'.bindings.KeyFree
  bound : ∀ name, (env.get? name).isSome → (env'.get? name).isSome

namespace Keeps

variable {env env' : Environment}

theorem refl (h : env.bindings.KeyFree) : env.Keeps env := ⟨h, fun _ => id⟩

theorem trans {env₁ env₂ env₃ : Environment} (h : env₁.Keeps env₂) (h' : env₂.Keeps env₃) :
    env₁.Keeps env₃ :=
  ⟨h'.keyFree, fun name hname => h'.bound name (h.bound name hname)⟩

/-- Names that were bound stay so. -/
theorem covers {ts : List Token} (h : env.Keeps env') (hts : env.Covers ts) : env'.Covers ts :=
  fun name hname => h.bound name (hts name hname)

/-- A write of anything but a key keeps what was bound. -/
theorem set (h : env.Keeps env') (name : String) {value : Value} (hvalue : value.isKey = false) :
    env.Keeps (env'.set name value) := by
  refine ⟨h.keyFree.insert name hvalue, fun other hother => ?_⟩
  -- The written name is bound now, and no other name has changed.
  rw [get?_set]
  split
  · rfl
  · exact h.bound other hother

end Keeps

end Environment

/-! ### Trees -/

namespace Expr

/-- Whether a tree has a value that is no key, in every environment without keys that binds the
names it refers to, and leads to another such environment. -/
def Safe (e : Expr) : Prop :=
  ∀ env : Environment, env.bindings.KeyFree → env.Covers e.postorder →
    ∃ v env', e.eval env = (.ok v, env') ∧ v.isKey = false ∧ env.Keeps env'

/-- Safe trees have values that are no keys, one after the other. -/
theorem evalAll_ok_of_safe {es : List Expr} (h : ∀ e ∈ es, e.Safe) {env : Environment}
    (hfree : env.bindings.KeyFree) (hcovers : env.Covers (postorderAll es)) :
    ∃ values env', evalAll es env = (.ok values, env') ∧ (∀ v ∈ values, v.isKey = false) ∧
      env.Keeps env' := by
  induction es generalizing env with
  -- Each tree starts in the environment that the trees before it have left.
  | nil => exact ⟨[], env, rfl, fun _ hv => (nomatch hv), .refl hfree⟩
  | cons e rest ih =>
    obtain ⟨hsafe, hrest⟩ := List.forall_mem_cons.1 h
    rw [postorderAll, Environment.covers_append] at hcovers
    obtain ⟨v, env₁, heval, hv, hkeeps⟩ := hsafe env hfree hcovers.1
    -- What the rest refers to is still bound behind the first tree.
    obtain ⟨values, env₂, hevals, hvalues, hkeeps'⟩ :=
      ih hrest hkeeps.keyFree (hkeeps.covers hcovers.2)
    refine ⟨v :: values, env₂, ?_, List.forall_mem_cons.2 ⟨hv, hvalues⟩, hkeeps.trans hkeeps'⟩
    simp only [evalAll, heval, hevals]

namespace Safe

/-- A number is its own value. -/
theorem number (x : Float) : (number x).Safe :=
  fun env hfree _ => ⟨.number x, env, rfl, rfl, .refl hfree⟩

/-- A bound name has a value that is no key, whether a default or an earlier `SET` bound it. -/
theorem reference (name : String) : (reference name).Safe := by
  intro env hfree hcovers
  obtain ⟨v, hget⟩ := Option.isSome_iff_exists.1 (hcovers name (List.mem_singleton_self _))
  exact ⟨v, env, by simp only [eval, hget], hfree name v hget, .refl hfree⟩

/-- An operation on safe operands, which binds nothing by itself. -/
theorem binary (op : Operator) {left right : Expr} (hleft : left.Safe) (hright : right.Safe) :
    (binary op left right).Safe := by
  intro env hfree hcovers
  rw [postorder, Environment.covers_append, Environment.covers_append] at hcovers
  obtain ⟨⟨hcoversl, hcoversr⟩, -⟩ := hcovers
  obtain ⟨a, env₁, heval, ha, hkeeps⟩ := hleft env hfree hcoversl
  obtain ⟨b, env₂, heval', hb, hkeeps'⟩ := hright env₁ hkeeps.keyFree (hkeeps.covers hcoversr)
  obtain ⟨v, happly, hv⟩ := op.apply_ok_of_not_key ha hb
  exact ⟨v, env₂, by simp only [eval, heval, heval', happly], hv, hkeeps.trans hkeeps'⟩

/-- A call of any function but `SET` on safe arguments, which binds nothing by itself. -/
theorem call {name : String} {b : Builtin} {arguments : List Expr}
    (hname : Builtin.named? name = some b) (hb : b ≠ .assign)
    (hlength : arguments.length = b.arity) (hargs : ∀ e ∈ arguments, e.Safe) :
    (call name arguments).Safe := by
  intro env hfree hcovers
  rw [postorder, Environment.covers_append] at hcovers
  obtain ⟨values, env₁, hevals, hvalues, hkeeps⟩ := evalAll_ok_of_safe hargs hfree hcovers.1
  have hlength' : values.length = b.arity := (length_of_evalAll hevals).trans hlength
  obtain ⟨v, hcall, hv⟩ := Builtin.call_ok_of_not_key hb hlength' hvalues
  exact ⟨v, env₁, by simp only [eval, hevals, apply, hname, hcall, record], hv, hkeeps⟩

/-- A call of `SET` with a key and a safe tree. The key is not evaluated to anything else. -/
theorem assign (target : String) {e : Expr} (he : e.Safe) :
    (Expr.call Builtin.assign.name [key target, e]).Safe := by
  intro env hfree hcovers
  simp only [postorder, postorderAll, List.append_nil, Environment.covers_append] at hcovers
  obtain ⟨v, env₁, heval, hv, hkeeps⟩ := he env hfree hcovers.1.2
  refine ⟨v, env₁.set target v, ?_, hv, hkeeps.set target hv⟩
  have hname : Builtin.named? Builtin.assign.name = some .assign :=
    Builtin.named?_eq_some_iff.2 rfl
  have hcall : Builtin.assign.call [.key target, v] = .ok ⟨v, some (target, v)⟩ := by
    cases v with
    | key name => simp [Value.isKey] at hv
    | number x => rfl
    | bool b => rfl
  simp only [eval, evalAll, heval, apply, hname, hcall, record]

end Safe

/-- A saturated tree with its keys in place is safe. -/
theorem safe_of_keysInPlace {e : Expr} (hsat : e.Saturated) (hkeys : e.KeysInPlace) : e.Safe := by
  induction e using Expr.induct with
  | number x => exact .number x
  | key name => exact hkeys.elim
  | reference name => exact .reference name
  | binary op left right ihleft ihright =>
    obtain ⟨hsatl, hsatr⟩ := saturated_binary_iff.1 hsat
    exact .binary op (ihleft hsatl hkeys.1) (ihright hsatr hkeys.2)
  | call name arguments ih =>
    obtain ⟨hsatargs, b, hname, hlength⟩ := saturated_call_iff.1 hsat
    by_cases hset : b = .assign
    · subst hset
      obtain rfl := Builtin.named?_eq_some_iff.1 hname
      obtain ⟨target, e, rfl, hkeyse⟩ := hkeys.of_assign hlength
      exact .assign target (ih e (by simp) (hsatargs e (by simp)) hkeyse)
    · have hne : name ≠ Builtin.assign.name := fun h =>
        hset (Option.some.inj (hname.symm.trans (Builtin.named?_eq_some_iff.2 h.symm)))
      have hkeysargs := hkeys.of_not_assign hne
      exact .call hname hset hlength fun e he => ih e he (hsatargs e he) (hkeysargs e he)

end Expr

/-! ### Expressions of the grammar -/

/-- An expression of the grammar is accepted, and has a value that is a number or a truth value, if
its calls are saturated, its keys are in place, and an environment without keys binds the names it
refers to. -/
theorem ofInfix_evaluate_ok {ts : List Token} {e : Expr} (h : Derives .expression ts [e])
    (hsat : e.Saturated) (hkeys : e.KeysInPlace) {env : Environment}
    (hfree : env.bindings.KeyFree)
    (hbound : ∀ name, .reference name ∈ ts → (env.get? name).isSome) (strictness : Strictness) :
    ∃ rpn v env', Postfix.ofInfix strictness ts = .ok rpn ∧
      evaluate rpn env = (.ok v, env') ∧ ((∃ x, v = .number x) ∨ ∃ b, v = .bool b) := by
  have hrpn := Postfix.ofInfix_of_derives h strictness
  -- The conversion invents no references, so those of the tree stand in the text.
  have hcovers : env.Covers e.postorder := fun name hname =>
    hbound name (List.mem_filter.1 ((Postfix.perm_of_ofInfix hrpn).subset hname)).1
  obtain ⟨v, env', heval, hv, -⟩ := Expr.safe_of_keysInPlace hsat hkeys env hfree hcovers
  have hevaluate :=
    Machine.evaluate_of_computes (Machine.computes_postorder (.start env false) hsat.2)
  -- What is no key is a number or a truth value.
  refine ⟨e.postorder, v, env', hrpn, hevaluate.trans heval, ?_⟩
  cases v with
  | number x => exact .inl ⟨x, rfl⟩
  | bool b => exact .inr ⟨b, rfl⟩
  | key name => exact nomatch hv

open Token Punct in
/-- `MAX(SET(#N, $PI), 2) < $E`. -/
theorem ofInfix_evaluate_constants :
    ∃ rpn v env', Postfix.ofInfix .strict
      [function "MAX", punct leftParen, function "SET", punct leftParen, key "N", punct comma,
        reference "PI", punct rightParen, punct comma, number 2, punct rightParen,
        operator .less, reference "E"] = .ok rpn ∧
      evaluate rpn .standard = (.ok v, env') ∧ ((∃ x, v = .number x) ∨ ∃ b, v = .bool b) := by
  have assignment := @Derives.call "SET" _ _ (by decide)
    (.moreArguments (.of_le (@Derives.key "N" (by decide)) (Nat.zero_le 4))
      (.argument (.of_le (@Derives.reference "PI" (by decide)) (Nat.zero_le 4))) (by simp))
  have greater := @Derives.call "MAX" _ _ (by decide)
    (.moreArguments (assignment.of_le (Nat.zero_le 4))
      (.argument (.of_le (.number 2) (Nat.zero_le 4))) (by simp))
  have comparison := @Derives.binary 0 .less _ _ _ _ (by decide) (greater.of_le (by decide))
    (.of_le (@Derives.reference "E" (by decide)) (by decide))
  have hfree : Environment.standard.bindings.KeyFree :=
    (Bindings.keyFree_empty.insert "PI" rfl).insert "E" rfl
  refine ofInfix_evaluate_ok comparison (by decide) ?_ hfree ?_ .strict
  · -- The only key is the first argument of `SET`.
    simp [Expr.KeysInPlace, Expr.AllKeysInPlace, Expr.isKey, Builtin.name]
  · intro name hname
    obtain rfl | rfl : name = "PI" ∨ name = "E" := by simpa using hname
    · rfl
    · rfl

end Calculator
