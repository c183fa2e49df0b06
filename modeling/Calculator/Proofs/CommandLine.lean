import Calculator.Invocation

/-!
# Reading a command line

Arguments are added to an invocation from left to right, up to a `-c` with something behind it. No
argument takes back what another one asked for, except that a script replaces the one before. So
what a command line asks for can be read off all arguments that count at once, whatever their order.

## Key results

- `addArgument_eq`: what a single argument adds
- `addArguments_append`: arguments in two parts
- `addArguments_eq_withCounted`: what arguments add that all count
- `addArguments_expression`: what arguments add with an expression at their end
- `ofArguments_reading`: the fields of an invocation, read off its command line
-/

namespace Calculator.Invocation

/-- The arguments that are switches. -/
def switches : List String :=
  ["--trace", "--strict", "--json", "--no-rc", "--help", "-h", "--version", "-V"]

/-- Whether an argument is taken for an option, known or not, and never for a path. -/
def IsOption (argument : String) : Prop := argument.toList.head? = some '-'

instance : DecidablePred IsOption := fun _ => inferInstanceAs (Decidable (_ = _))

/-- An invocation with what arguments ask for that all count by themselves. -/
def withCounted (inv : Invocation) (counted : List String) : Invocation where
  command := inv.command
  script := (counted.filter fun argument => ¬ IsOption argument).getLast?.or inv.script
  help := inv.help || ("--help" ∈ counted || "-h" ∈ counted)
  version := inv.version || ("--version" ∈ counted || "-V" ∈ counted)
  trace := inv.trace || "--trace" ∈ counted
  strict := inv.strict || "--strict" ∈ counted
  json := inv.json || "--json" ∈ counted
  noStartup := inv.noStartup || "--no-rc" ∈ counted

/-- Whether all fields of an invocation but its command are what the counted arguments ask for. -/
structure Reads (inv : Invocation) (counted : List String) : Prop where
  script : inv.script = (counted.filter fun argument => ¬ IsOption argument).getLast?
  help : inv.help = true ↔ "--help" ∈ counted ∨ "-h" ∈ counted
  version : inv.version = true ↔ "--version" ∈ counted ∨ "-V" ∈ counted
  trace : inv.trace = true ↔ "--trace" ∈ counted
  strict : inv.strict = true ↔ "--strict" ∈ counted
  json : inv.json = true ↔ "--json" ∈ counted
  noStartup : inv.noStartup = true ↔ "--no-rc" ∈ counted

variable {arguments : List String}

/-! ### Single arguments -/

/-- An argument that is no switch is a script or, if it looks like a switch, nothing. -/
theorem withCounted_singleton (inv : Invocation) {argument : String} (h : argument ∉ switches) :
    inv.withCounted [argument] =
      if IsOption argument then inv else { inv with script := some argument } := by
  -- No switch is among the arguments, so every switch stays as it was.
  have hne : ∀ switch ∈ switches, switch ∉ [argument] := by
    intro switch hmem hsame
    exact h (List.mem_singleton.1 hsame ▸ hmem)
  simp only [switches, List.forall_mem_cons] at hne
  by_cases hoption : IsOption argument
  · simp [withCounted, hoption, hne]
  · simp [withCounted, hoption, hne]

/-- What a single argument adds. -/
theorem addArgument_eq (inv : Invocation) (argument : String) :
    inv.addArgument argument = inv.withCounted [argument] := by
  unfold addArgument
  split
  -- The first eight cases are the switches, and the last one is everything else.
  case h_9 =>
    refine (withCounted_singleton inv ?_).symm
    simp_all [switches]
  all_goals simp [withCounted, IsOption]

/-! ### All arguments -/

@[simp] theorem withCounted_nil (inv : Invocation) : inv.withCounted [] = inv := by
  simp [withCounted]

/-- Arguments can be counted one after the other. -/
theorem withCounted_append (inv : Invocation) (first second : List String) :
    inv.withCounted (first ++ second) = (inv.withCounted first).withCounted second := by
  simp [withCounted, Bool.or_assoc, Bool.or_left_comm, Option.or_assoc]

/-- The first argument is added before the others, unless it makes an expression of them. -/
theorem addArguments_cons (inv : Invocation) {argument : String} {more : List String}
    (h : argument = "-c" → more = []) :
    inv.addArguments (argument :: more) = (inv.addArgument argument).addArguments more :=
  addArguments.eq_3 inv argument more fun _ _ heq hmore => nomatch (h heq).symm.trans hmore

/-- Arguments without an expression are added before what stands behind them. -/
theorem addArguments_append (inv : Invocation) (h : "-c" ∉ arguments) (more : List String) :
    inv.addArguments (arguments ++ more) = (inv.addArguments arguments).addArguments more := by
  induction arguments generalizing inv with
  | nil => rfl
  | cons argument rest ih =>
    obtain ⟨hne, hrest⟩ := List.ne_and_not_mem_of_not_mem_cons h
    rw [List.cons_append, addArguments_cons inv fun heq => absurd heq.symm hne,
      addArguments_cons inv fun heq => absurd heq.symm hne, ih _ hrest]

/-- Unless something stands behind a `-c`, all arguments count. -/
theorem addArguments_eq_withCounted (inv : Invocation)
    (h : ∀ before expression, arguments = before ++ "-c" :: expression → expression = []) :
    inv.addArguments arguments = inv.withCounted arguments := by
  -- A `-c` at the end of the arguments is an option that is no switch.
  induction arguments generalizing inv with
  | nil => exact (withCounted_nil inv).symm
  | cons argument rest ih =>
    have hfirst : argument = "-c" → rest = [] := fun heq => h [] rest (heq ▸ rfl)
    have hrest : ∀ before expression, rest = before ++ "-c" :: expression → expression = [] :=
      fun before expression heq => h (argument :: before) expression (heq ▸ rfl)
    calc inv.addArguments (argument :: rest)
      _ = (inv.addArgument argument).addArguments rest := addArguments_cons inv hfirst
      _ = (inv.withCounted [argument]).withCounted rest := by rw [addArgument_eq, ih _ hrest]
      _ = inv.withCounted (argument :: rest) := (withCounted_append inv [argument] rest).symm

/-- What stands behind the first `-c` is the expression, and what stands before it counts. -/
theorem addArguments_expression (inv : Invocation) {counted expression : List String}
    (hfirst : "-c" ∉ counted) (hexpression : expression ≠ []) :
    inv.addArguments (counted ++ "-c" :: expression) =
      { inv.withCounted counted with command := some (" ".intercalate expression) } := by
  have hcounted : inv.addArguments counted = inv.withCounted counted :=
    addArguments_eq_withCounted inv fun before expression heq =>
      absurd (heq ▸ List.mem_append_right before List.mem_cons_self) hfirst
  -- What stands before the expression has been counted by then.
  rw [addArguments_append inv hfirst, hcounted]
  cases expression with
  | nil => exact absurd rfl hexpression
  | cons argument rest => rfl

/-- An argument that does not begin with a hyphen is the path of a script. -/
theorem addArguments_path (inv : Invocation) {path : String} (h : path.toList.head? ≠ some '-') :
    inv.addArguments [path] = { inv with script := some path } := by
  -- All switches begin with a hyphen.
  have hoptions : ∀ switch ∈ switches, IsOption switch := by decide
  have hswitch : path ∉ switches := fun hmem => h (hoptions path hmem)
  rw [addArguments_cons inv fun _ => rfl, addArgument_eq, withCounted_singleton inv hswitch]
  exact if_neg h

/-! ### What a command line asks for -/

/-- The fields of an invocation that has nothing but what arguments ask for. -/
theorem reads_withCounted (counted : List String) : (none.withCounted counted).Reads counted where
  script := Option.or_none
  help := by simp [withCounted, none]
  version := by simp [withCounted, none]
  trace := by simp [withCounted, none]
  strict := by simp [withCounted, none]
  json := by simp [withCounted, none]
  noStartup := by simp [withCounted, none]

/-- If something stands behind a `-c`, the first `-c` begins the expression, which is all that stands
behind it, and what stands before it counts. Otherwise all arguments count and there is no
expression. Of those that count, an option that is no switch can be left out. -/
theorem ofArguments_reading (arguments : List String) :
    let inv : Invocation := ofArguments arguments
    let given := arguments.drop 1
    (∀ counted expression, given = counted ++ "-c" :: expression → "-c" ∉ counted →
      expression ≠ [] →
      inv.command = some (" ".intercalate expression) ∧ inv.Reads counted) ∧
    ((∀ before expression, given = before ++ "-c" :: expression → expression = []) →
      inv.command = .none ∧ inv.Reads given) ∧
    ∀ program before argument after, arguments = program :: (before ++ argument :: after) →
      "-c" ∉ before → (argument = "-c" → after = []) → IsOption argument → argument ∉ switches →
      inv = ofArguments (program :: (before ++ after)) := by
  intro inv given
  refine ⟨fun counted expression hgiven hfirst hexpression => ?_, fun hlone => ?_, ?_⟩
  · -- The part before the first expression cannot hold one itself.
    have hinv : inv = _ := (congrArg none.addArguments hgiven).trans
      (addArguments_expression none hfirst hexpression)
    rw [hinv]
    exact ⟨rfl, { reads_withCounted counted with }⟩
  · have hinv : inv = none.withCounted given := addArguments_eq_withCounted none hlone
    rw [hinv]
    exact ⟨rfl, reads_withCounted given⟩
  · rintro program before argument after rfl hbefore hlone hoption hswitch
    -- The option is reached as a single argument, and adds nothing.
    calc inv
      _ = ((none.addArguments before).addArgument argument).addArguments after := by
        rw [← addArguments_cons _ hlone]
        exact addArguments_append none hbefore _
      _ = (none.addArguments before).addArguments after := by
        rw [addArgument_eq, withCounted_singleton _ hswitch, if_pos hoption]
      _ = none.addArguments (before ++ after) := (addArguments_append none hbefore after).symm

/-- Switches and a second `-c` in an expression, an unknown option in front of it, and a `-c` at the
end of a command line. -/
theorem ofArguments_reading_dashes :
    let inv := ofArguments ["formula", "s", "--json", "-x", "-c", "1", "-c", "--help"]
    let lone := ofArguments ["formula", "s", "", "-V", "-c"]
    inv.command = some "1 -c --help" ∧ inv.Reads ["s", "--json", "-x"] ∧
      inv = ofArguments ["formula", "s", "--json", "-c", "1", "-c", "--help"] ∧
      lone.command = .none ∧ lone.Reads ["s", "", "-V", "-c"] ∧
      lone = ofArguments ["formula", "s", "", "-V"] := by
  intro inv lone
  obtain ⟨hexpression, -, hignored⟩ :=
    ofArguments_reading ["formula", "s", "--json", "-x", "-c", "1", "-c", "--help"]
  obtain ⟨-, hplain, hlast⟩ := ofArguments_reading ["formula", "s", "", "-V", "-c"]
  obtain ⟨hcommand, hreads⟩ := hexpression ["s", "--json", "-x"] _ rfl (by decide) (by decide)
  -- The only `-c` of the second line has nothing behind it.
  have hlone : ∀ before expression,
      ["s", "", "-V", "-c"] = before ++ "-c" :: expression → expression = [] := by
    rintro (_ | ⟨_, _ | ⟨_, _ | ⟨_, _ | ⟨_, before⟩⟩⟩⟩) expression h
    all_goals simp_all
  obtain ⟨hnone, hall⟩ := hplain hlone
  exact ⟨hcommand, hreads,
    hignored "formula" ["s", "--json"] "-x" _ rfl (by decide) (by decide) rfl (by decide),
    hnone, hall,
    hlast "formula" ["s", "", "-V"] "-c" [] rfl (by decide) (fun _ => rfl) rfl (by decide)⟩

end Calculator.Invocation
