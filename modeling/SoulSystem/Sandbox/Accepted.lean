import SoulSystem.Sandbox.Check

/-!
# Commands that are accepted

A command is checked by its first word after one rewrite and run by its first word after another, or
after none.  These are one word when both rewrites leave it, and when the blank after it is ASCII.

A command is checked for patterns as its rewritten text, and run as the words of another
text.  Joined with blanks these are what was checked when nothing in the command is rewritten and
its words are one blank apart.
-/

namespace SoulSystem.Sandbox

open Library Str List

section Binary

/-- Every way to run an accepted command spawns the binary that was checked, which is not banned,
and on the list if there is one. -/
def RunsChecked (policy : SandboxPolicy) (cmd : Str) : Prop :=
  ∀ bin, check policy cmd = .ok bin → ∀ run ∈ executions,
    ∃ args, run policy cmd = .ok (some (bin :: args)) ∧ bin ∉ bannedBinaries ∧
      ∀ binaries ∈ policy.whitelist, bin ∈ binaries

/-- The first word is ASCII, before an ASCII blank or the end, and none of the rewrites finds
anything in it. -/
def HeadKept (cmd : Str) : Prop :=
  (∀ c ∈ headWord cmd, isAscii c = true) ∧ Unrewritten (headWord cmd) ∧ Unseparated (headWord cmd) ∧
    ∀ c ∈ (afterHead cmd).head?, isAscii c = true

instance (cmd : Str) : Decidable (HeadKept cmd) :=
  let _ : Decidable (∀ c ∈ (afterHead cmd).head?, isAscii c = true) := Option.decidableForallMem _
  inferInstanceAs (Decidable (_ ∧ _ ∧ _ ∧ _))

variable {policy : SandboxPolicy} {cmd bin : Str}

/-- The first word of the rewrite for the check. -/
theorem firstWord_normalize (hne : trim cmd ≠ []) (hkept : HeadKept cmd) :
    firstWord (normalize (trim cmd)) = headWord cmd := by
  obtain ⟨hascii, hunrewritten, -, hblank⟩ := hkept
  have hinit : (afterHead cmd).rdropWhile isWhitespace <+: afterHead cmd :=
    rdropWhile_prefix isWhitespace (afterHead cmd)
  have hopens : Opens ((afterHead cmd).rdropWhile isWhitespace) := by
    intro c hc
    have hhead : c ∈ (afterHead cmd).head? := by
      obtain ⟨last, hlast⟩ := hinit
      rw [← hlast, head?_append, Option.mem_def.mp hc]
      rfl
    exact ⟨stops_afterHead cmd c hhead, hblank c hhead⟩
  obtain ⟨rest, hrest, hnext⟩ := keeps_normalize hascii hunrewritten _ hopens
  rw [trim_eq_headWord_append, hrest, firstWord, splitWhitespace_word (headWord_ne_nil hne)
    (fun _ ↦ isWhitespace_of_mem_headWord) fun c hc ↦ (hnext c hc).1]
  rfl

/-- The first word of a command stays the binary when only what follows it is rewritten. -/
theorem buildCommand_of_parts (hne : trim cmd ≠ []) {rest : Str} (hrest : Stops rest) :
    ∃ args, buildCommand (cmd.takeWhile isWhitespace ++ headWord cmd ++ rest) =
      some (headWord cmd :: args) := by
  have hlead : ∀ c ∈ cmd.takeWhile isWhitespace, isWhitespace c = true :=
    fun _ hc ↦ mem_takeWhile_imp hc
  rw [buildCommand, append_assoc, splitWhitespace_lead hlead,
    splitWhitespace_word (headWord_ne_nil hne) (fun _ ↦ isWhitespace_of_mem_headWord) hrest]
  exact ⟨splitWhitespace rest, rfl⟩

theorem sanitizeForExecution_eq (hword : Unseparated (headWord cmd)) :
    sanitizeForExecution cmd = cmd.takeWhile isWhitespace ++ headWord cmd ++
      neutralizeRedirectsAndPipes (afterHead cmd) := by
  calc sanitizeForExecution cmd
      = neutralizeRedirectsAndPipes
          (cmd.takeWhile isWhitespace ++ (headWord cmd ++ afterHead cmd)) := by
        rw [sanitizeForExecution, ← append_assoc, lead_append_headWord]
    _ = cmd.takeWhile isWhitespace ++ (headWord cmd ++
          neutralizeRedirectsAndPipes (afterHead cmd)) := by
        rw [neutralizeRedirectsAndPipes_lead fun _ hc ↦ mem_takeWhile_imp hc,
          neutralizeRedirectsAndPipes_append hword (stops_afterHead cmd)]
    _ = cmd.takeWhile isWhitespace ++ headWord cmd ++
          neutralizeRedirectsAndPipes (afterHead cmd) := (append_assoc _ _ _).symm

/-- **The binary that was checked is run when both rewrites keep the first word.** -/
theorem runsChecked_of_headKept (policy : SandboxPolicy) (hkept : HeadKept cmd) :
    RunsChecked policy cmd := by
  intro bin hcheck
  have hpasses := passes_of_check hcheck
  have hbin : bin = headWord cmd :=
    hpasses.bin_eq.trans (firstWord_normalize hpasses.ne_nil hkept)
  have hsanitized : ∃ args, buildCommand (sanitizeForExecution cmd) = some (bin :: args) := by
    rw [hbin, sanitizeForExecution_eq hkept.2.2.1]
    exact buildCommand_of_parts hpasses.ne_nil
      (stops_neutralizeRedirectsAndPipes (stops_afterHead cmd))
  have hraw : ∃ args, buildCommand cmd = some (bin :: args) := by
    have hparts := buildCommand_of_parts hpasses.ne_nil (stops_afterHead cmd)
    rwa [lead_append_headWord, ← hbin] at hparts
  have hspawned : ∀ text, (∃ args, buildCommand text = some (bin :: args)) →
      ∃ args, (check policy cmd).map (fun _ ↦ buildCommand text) = .ok (some (bin :: args)) ∧
        bin ∉ bannedBinaries ∧ ∀ binaries ∈ policy.whitelist, bin ∈ binaries := by
    rintro text ⟨args, hargs⟩
    rw [hcheck, hargs]
    exact ⟨args, rfl, hpasses.banned, hpasses.listed⟩
  exact List.forall_mem_cons.mpr ⟨hspawned _ hsanitized, List.forall_mem_cons.mpr
    ⟨hspawned _ hraw, List.forall_mem_cons.mpr ⟨hspawned _ hraw, fun _ hrun ↦ nomatch hrun⟩⟩⟩

/-- A command with a redirection and a variable after its first word. -/
theorem runsChecked_echo :
    ∃ args, execute .default "echo $\x7bIFS\x7d a;b > c".toList = .ok (some ("echo".toList :: args)) := by
  have hcheck : check .default "echo $\x7bIFS\x7d a;b > c".toList = .ok "echo".toList := by
    decide +kernel
  obtain ⟨args, hargs, -⟩ := runsChecked_of_headKept .default (by decide +kernel) _ hcheck execute
    mem_cons_self
  exact ⟨args, hargs⟩

/-- The check reads `;sudo`, and `sudo` is run. -/
theorem not_runsChecked_semicolon : ¬ RunsChecked .default ";sudo id".toList := by
  intro hruns
  have hcheck : check .default ";sudo id".toList = .ok ";sudo".toList := by
    decide +kernel
  have hexecute : execute .default ";sudo id".toList = .ok (some ["sudo".toList, "id".toList]) := by
    decide +kernel
  obtain ⟨args, hargs, -⟩ := hruns _ hcheck execute mem_cons_self
  have hsame := Option.some.inj (Except.ok.inj (hexecute.symm.trans hargs))
  exact absurd (List.cons.inj hsame).1 (by decide)

end Binary

/-! ## Patterns that are refused -/

/-- The words that an accepted command is run with contain no refused pattern when they
are joined. -/
def RefusesPatterns (policy : SandboxPolicy) (cmd : Str) : Prop :=
  ∀ bin, check policy cmd = .ok bin → ∀ run ∈ executions, ∀ argv, run policy cmd = .ok (some argv) →
    Clear policy (join " ".toList argv)

/-- None of the rewrites finds anything in the command, and its words are one blank apart. -/
def AsWritten (cmd : Str) : Prop :=
  Unrewritten (trim cmd) ∧ Unseparated cmd ∧ join " ".toList (splitWhitespace cmd) = trim cmd

instance (cmd : Str) : Decidable (AsWritten cmd) := inferInstanceAs (Decidable (_ ∧ _ ∧ _))

variable {policy : SandboxPolicy} {cmd bin text : Str}

/-- All patterns are ASCII, so they are found in a text whose bytes are read as characters. -/
theorem Clear.of_mangled (hclear : Clear policy (mangled text)) : Clear policy text where
  forbidden := fun entry hentry hoccurs ↦ hclear.forbidden entry hentry
    (infix_mangled
      ((by decide : ∀ entry ∈ forbiddenPatterns, ∀ c ∈ entry.1, isAscii c = true) entry hentry) hoccurs)
  bypass := fun hblock entry hentry hoccurs ↦ hclear.bypass hblock entry hentry
    (infix_mangled
      ((by decide : ∀ entry ∈ shellBypassTokens, ∀ c ∈ entry.1, isAscii c = true) entry hentry) hoccurs)
  paths := fun hblock path hpath hoccurs ↦ hclear.paths hblock path hpath
    (infix_mangled ((by decide : ∀ path ∈ sensitivePaths, ∀ c ∈ path, isAscii c = true) path hpath)
      hoccurs)

theorem buildCommand_eq_some {argv : List Str} (hbuild : buildCommand cmd = some argv) :
    splitWhitespace cmd = argv :=
  Option.some.inj (Option.ite_none_left_eq_some.mp hbuild).2

/-- **No refused pattern is run when the command is run as it is written.** -/
theorem refusesPatterns_of_asWritten (policy : SandboxPolicy) (hwritten : AsWritten cmd) :
    RefusesPatterns policy cmd := by
  obtain ⟨hunrewritten, hunseparated, hjoined⟩ := hwritten
  intro bin hcheck
  have hclear : Clear policy (trim cmd) := by
    have hnormalized := (passes_of_check hcheck).clear
    rw [normalize_eq hunrewritten] at hnormalized
    exact hnormalized.of_mangled.of_mangled
  have hsanitized : sanitizeForExecution cmd = cmd := neutralizeRedirectsAndPipes_eq hunseparated
  have hspawned : ∀ argv, (check policy cmd).map (fun _ ↦ buildCommand cmd) = .ok (some argv) →
      Clear policy (join " ".toList argv) := by
    intro argv hargv
    rw [hcheck] at hargv
    rw [← buildCommand_eq_some (Except.ok.inj hargv), hjoined]
    exact hclear
  refine List.forall_mem_cons.mpr ⟨fun argv hargv ↦ hspawned argv ?_, List.forall_mem_cons.mpr
    ⟨hspawned, List.forall_mem_cons.mpr ⟨hspawned, fun _ hrun ↦ nomatch hrun⟩⟩⟩
  rwa [execute, hsanitized] at hargv

theorem refusesPatterns_list :
    ∃ argv, execute .default " ls -la /home/é".toList = .ok (some argv) ∧
      Clear .default (join " ".toList argv) := by
  have hcheck : check .default " ls -la /home/é".toList = .ok "ls".toList := by
    decide +kernel
  have hexecute : execute .default " ls -la /home/é".toList =
      .ok (some ["ls".toList, "-la".toList, "/home/é".toList]) := by
    decide +kernel
  exact ⟨_, hexecute, refusesPatterns_of_asWritten .default (by decide +kernel) _ hcheck execute
    mem_cons_self _ hexecute⟩

/-- Between two blanks the check does not find the pattern that is run. -/
theorem not_refusesPatterns_twoBlanks : ¬ RefusesPatterns .default "rm  -rf /".toList := by
  intro hrefuses
  have hcheck : check .default "rm  -rf /".toList = .ok "rm".toList := by
    decide +kernel
  have hexecute : execute .default "rm  -rf /".toList =
      .ok (some ["rm".toList, "-rf".toList, "/".toList]) := by
    decide +kernel
  have hclear := hrefuses _ hcheck execute mem_cons_self _ hexecute
  exact hclear.forbidden ("rm -rf /".toList, .destructiveRecursive) mem_cons_self (by decide)

end SoulSystem.Sandbox
