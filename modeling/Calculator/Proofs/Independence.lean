import Calculator.Proofs.Dependence
import Calculator.Proofs.Footprint

/-!
# Texts that can be calculated in any order

A text reads the names to which it refers and, in an environment without keys, binds names that it
mentions as keys. If neither of two texts mentions a key to which the other one refers, and they
have no key in common, then neither notices whether the other has been calculated before. This holds
also if one of them fails halfway, since what it has bound until then are keys of its own.

## Key results

- `Environment.setAll_comm`: bindings of different names can be made in any order
- `calculate_comm`: so can calculations of texts that have nothing to do with each other
-/

namespace Calculator

namespace Environment

/-- Environments with the same look-ups and the same defaults are equal. -/
theorem ext_get? {env env' : Environment} (hdefaults : env.defaults = env'.defaults)
    (h : ∀ name, env.get? name = env'.get? name) : env = env' := by
  obtain ⟨bindings, defaults⟩ := env
  obtain ⟨bindings', defaults'⟩ := env'
  -- Bindings are stored in order, so equal look-ups leave only one way to store them.
  obtain rfl : bindings = bindings' := Bindings.ext_get? h
  obtain rfl : defaults = defaults' := hdefaults
  rfl

/-- Bindings of different names can be made in any order. -/
theorem setAll_comm (env : Environment) {xs ys : List (String × Value)}
    (h : ∀ x ∈ xs, ∀ y ∈ ys, x.1 ≠ y.1) :
    (env.setAll xs).setAll ys = (env.setAll ys).setAll xs := by
  apply ext_get?
  · simp only [defaults_setAll]
  · intro name
    by_cases hname : ∃ y ∈ ys, y.1 = name
    · -- The name is written by `ys`, so `xs` does not change it.
      have hxs : ∀ x ∈ xs, x.1 ≠ name := fun x hx heq => by
        obtain ⟨y, hy, rfl⟩ := hname
        exact h x hx y hy heq
      rw [get?_setAll_of_forall_ne hxs]
      exact get?_setAll_congr (.inr hname)
    · -- The name is not written by `ys`, so what `xs` does to it is all there is.
      have hys : ∀ y ∈ ys, y.1 ≠ name := fun y hy heq => hname ⟨y, hy, heq⟩
      rw [get?_setAll_of_forall_ne hys]
      exact (get?_setAll_congr (.inl (get?_setAll_of_forall_ne hys))).symm

end Environment

section

variable {strictness : Strictness} {tracing : Bool} {text : String} {ts : List Token}
  {env : Environment}

/-- In an environment without keys, a text leaves alone what it does not mention as a key. -/
theorem get?_calculate (hscan : Token.scan strictness text = .ok ts) (hfree : env.bindings.KeyFree)
    {name : String} (hname : .key name ∉ ts) :
    (calculate strictness tracing text env).env.get? name = env.get? name := by
  rw [env_calculate]
  refine Environment.get?_setAll_of_forall_ne fun s hs heq => ?_
  -- A name that is written would be mentioned as a key.
  obtain ⟨tokens, hscan', hkey⟩ := names_calculate hfree s hs
  obtain rfl : ts = tokens := Except.ok.inj (hscan.symm.trans hscan')
  exact hname (heq ▸ hkey)

end

/-- Two texts in an environment without keys, of which neither mentions a key to which the other one
refers or that the other one mentions as well. In both orders each of them has the same result, be
it a value or an error, and reports the same, and the environment after them is the same. -/
theorem calculate_comm {strictness : Strictness} {text₁ text₂ : String} {ts₁ ts₂ : List Token}
    (hscan₁ : Token.scan strictness text₁ = .ok ts₁)
    (hscan₂ : Token.scan strictness text₂ = .ok ts₂)
    (h₁ : ∀ name, .key name ∈ ts₁ → .reference name ∉ ts₂ ∧ .key name ∉ ts₂)
    (h₂ : ∀ name, .key name ∈ ts₂ → .reference name ∉ ts₁) {env : Environment}
    (hfree : env.bindings.KeyFree) (tracing : Bool) :
    let run := calculate strictness tracing
    (run text₁ (run text₂ env).env).result = (run text₁ env).result ∧
      (run text₂ (run text₁ env).env).result = (run text₂ env).result ∧
      (run text₁ (run text₂ env).env).events = (run text₁ env).events ∧
      (run text₂ (run text₁ env).env).events = (run text₂ env).events ∧
      (run text₁ (run text₂ env).env).env = (run text₂ (run text₁ env).env).env := by
  intro run
  -- Neither text refers to a name that the other one binds.
  have hreads₁ : ∀ tokens, Token.scan strictness text₁ = .ok tokens →
      ∀ name, .reference name ∈ tokens → (run text₂ env).env.get? name = env.get? name := by
    intro tokens htokens name hname
    obtain rfl : ts₁ = tokens := Except.ok.inj (hscan₁.symm.trans htokens)
    exact get?_calculate hscan₂ hfree fun hkey => h₂ name hkey hname
  have hreads₂ : ∀ tokens, Token.scan strictness text₂ = .ok tokens →
      ∀ name, .reference name ∈ tokens → (run text₁ env).env.get? name = env.get? name := by
    intro tokens htokens name hname
    obtain rfl : ts₂ = tokens := Except.ok.inj (hscan₂.symm.trans htokens)
    exact get?_calculate hscan₁ hfree fun hkey => (h₁ name hkey).1 hname
  obtain ⟨hresult₁, henv₁, -, hevents₁⟩ := calculate_agree strictness text₁ tracing tracing hreads₁
  obtain ⟨hresult₂, henv₂, -, hevents₂⟩ := calculate_agree strictness text₂ tracing tracing hreads₂
  refine ⟨hresult₁, hresult₂, hevents₁ rfl, hevents₂ rfl, ?_⟩
  -- The names that they bind are different ones, too.
  have hnames : ∀ s ∈ Event.writes (run text₂ env).events,
      ∀ s' ∈ Event.writes (run text₁ env).events, s.1 ≠ s'.1 := by
    intro s hs s' hs' heq
    obtain ⟨tokens₂, hscan₂', hkey₂⟩ := names_calculate hfree s hs
    obtain ⟨tokens₁, hscan₁', hkey₁⟩ := names_calculate hfree s' hs'
    obtain rfl : ts₂ = tokens₂ := Except.ok.inj (hscan₂.symm.trans hscan₂')
    obtain rfl : ts₁ = tokens₁ := Except.ok.inj (hscan₁.symm.trans hscan₁')
    exact (h₁ _ hkey₁).2 (heq ▸ hkey₂)
  calc (run text₁ (run text₂ env).env).env
      = (env.setAll (Event.writes (run text₂ env).events)).setAll
          (Event.writes (run text₁ env).events) := by rw [henv₁, ← env_calculate]
    _ = (env.setAll (Event.writes (run text₁ env).events)).setAll
          (Event.writes (run text₂ env).events) := Environment.setAll_comm env hnames
    _ = (run text₂ (run text₁ env).env).env := by rw [henv₂, ← env_calculate]

/-- The first text binds `A` and fails. The second one chooses between keys that are not bound. -/
theorem calculate_comm_failing :
    let run := calculate .lenient false
    (run "SET(#A, $PI) + $C" (run "SET(IF($E < 3, #B, #D), $E)" .standard).env).result =
        .error (.eval (.undefinedVariable "C")) ∧
      (run "SET(IF($E < 3, #B, #D), $E)" (run "SET(#A, $PI) + $C" .standard).env).result =
        (run "SET(IF($E < 3, #B, #D), $E)" .standard).result ∧
      (run "SET(#A, $PI) + $C" (run "SET(IF($E < 3, #B, #D), $E)" .standard).env).env =
        (run "SET(IF($E < 3, #B, #D), $E)" (run "SET(#A, $PI) + $C" .standard).env).env ∧
      (run "SET(#A, $PI) + $C" .standard).env.get? "A" = Environment.standard.get? "PI" := by
  intro run
  have hscan₁ : Token.scan .lenient "SET(#A, $PI) + $C" =
      .ok [.function "SET", .punct .leftParen, .key "A", .punct .comma, .reference "PI",
        .punct .rightParen, .operator .add, .reference "C"] := by decide +kernel
  have hscan₂ : Token.scan .lenient "SET(IF($E < 3, #B, #D), $E)" =
      .ok [.function "SET", .punct .leftParen, .function "IF", .punct .leftParen, .reference "E",
        .operator .less, .number 3, .punct .comma, .key "B", .punct .comma, .key "D",
        .punct .rightParen, .punct .comma, .reference "E", .punct .rightParen] := by decide +kernel
  have hfree : Environment.standard.bindings.KeyFree :=
    (Bindings.keyFree_empty.insert "PI" rfl).insert "E" rfl
  obtain ⟨hresult₁, hresult₂, -, -, henv⟩ :=
    calculate_comm hscan₁ hscan₂ (by simp) (by simp) hfree false
  -- The failing text fails alone as well, after its binding.
  refine ⟨hresult₁.trans ?_, hresult₂, henv, ?_⟩
  · decide +kernel
  · decide +kernel

end Calculator
