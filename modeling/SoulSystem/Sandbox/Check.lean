import SoulSystem.Sandbox.Rewrites

/-!
# The check of a command

A command is refused for its first word, for what its rewritten text contains, or because its first
word is not on the list of those allowed.  What is run is split at its white space, and only
`execute` rewrites it first.
-/

namespace SoulSystem.Sandbox

open Library Str

/-! ## Policies -/

inductive ThreatKind where
  | destructiveRecursive
  | forkBomb
  | rawDiskWrite
  | systemConfigWrite
  | shellEscape
  | downloadExec
  | sensitivePath
  | shellBypass
  | evalSource
  deriving DecidableEq

/-- The name of a kind in messages. -/
def ThreatKind.debug : ThreatKind → Str
  | .destructiveRecursive => "DestructiveRecursive".toList
  | .forkBomb => "ForkBomb".toList
  | .rawDiskWrite => "RawDiskWrite".toList
  | .systemConfigWrite => "SystemConfigWrite".toList
  | .shellEscape => "ShellEscape".toList
  | .downloadExec => "DownloadExec".toList
  | .sensitivePath => "SensitivePath".toList
  | .shellBypass => "ShellBypass".toList
  | .evalSource => "EvalSource".toList

def bannedBinaries : List Str :=
  ["sudo".toList, "su".toList, "doas".toList, "pkexec".toList, "bash".toList, "sh".toList,
    "zsh".toList, "fish".toList, "csh".toList, "ksh".toList]

def forbiddenPatterns : List (Str × ThreatKind) :=
  [("rm -rf /".toList, .destructiveRecursive),
    ("rm -rf /*".toList, .destructiveRecursive),
    ("rm -rf ~".toList, .destructiveRecursive),
    ("rm -rf $HOME".toList, .destructiveRecursive),
    (":()\x7b :|:& \x7d;:".toList, .forkBomb),
    (" > /dev/sd".toList, .rawDiskWrite),
    ("of=/dev/sd".toList, .rawDiskWrite),
    ("dd if=".toList, .rawDiskWrite),
    ("mkfs".toList, .rawDiskWrite),
    ("tee /etc/".toList, .systemConfigWrite),
    (" > /etc/".toList, .systemConfigWrite),
    (" > /boot/".toList, .systemConfigWrite),
    (" > /sys/".toList, .systemConfigWrite),
    (" > /proc/".toList, .systemConfigWrite),
    (" > /var/".toList, .systemConfigWrite),
    (" > /root/".toList, .systemConfigWrite),
    ("| sh".toList, .downloadExec),
    ("| bash".toList, .downloadExec),
    ("| sh\n".toList, .downloadExec),
    ("| sudo".toList, .shellEscape),
    ("|su -".toList, .shellEscape),
    ("| nc ".toList, .shellEscape)]

def shellBypassTokens : List (Str × ThreatKind) :=
  [("bash -c".toList, .shellBypass),
    ("sh -c".toList, .shellBypass),
    ("zsh -c".toList, .shellBypass),
    ("eval ".toList, .evalSource),
    ("eval(".toList, .evalSource),
    ("source ".toList, .evalSource),
    (". /".toList, .evalSource),
    ("exec ".toList, .shellBypass),
    ("env ".toList, .shellBypass),
    ("xargs ".toList, .shellBypass),
    ("-delete".toList, .shellBypass),
    (" -exec ".toList, .shellBypass)]

def sensitivePaths : List Str :=
  ["/etc/".toList, "/etc".toList, "/boot/".toList, "/boot".toList, "/proc/".toList, "/proc".toList,
    "/sys/".toList, "/sys".toList, "/var/".toList, "/var".toList, "/root/".toList, "/root".toList,
    "/dev/sd".toList, "/dev/nvme".toList, "/dev/hd".toList, "/dev/vd".toList, "/usr/lib/".toList,
    "/usr/lib64/".toList, "/lib/".toList, "/lib64/".toList, "/sbin/".toList, "/bin/".toList,
    "/var/log/".toList, "/var/lib/sudo".toList, "/etc/shadow".toList, "/etc/passwd".toList,
    "/etc/sudoers".toList, "/etc/ssh/".toList, "/root/.ssh/".toList]

structure SandboxPolicy where
  whitelist : Option (Finset Str)
  blockSensitivePaths : Bool
  blockShellBypass : Bool

/-- The default policy. -/
def SandboxPolicy.default : SandboxPolicy := ⟨none, true, true⟩

inductive SandboxError where
  | empty
  | forbidden (text : Str)
  | notWhitelisted (bin : Str)
  | sensitivePath (path : Str)
  | shellEscape (text : Str)
  deriving DecidableEq

/-! ## The check -/

/-- The first of the patterns that the text contains. -/
def findPattern (patterns : List (Str × ThreatKind)) (normalized : Str) : Option SandboxError :=
  (patterns.find? fun entry ↦ decide (entry.1 <:+: normalized)).map fun entry ↦
    .forbidden (entry.2.debug ++ " (".toList ++ entry.1 ++ ")".toList)

def findPath (normalized : Str) : Option SandboxError :=
  (sensitivePaths.find? fun path ↦ decide (path <:+: normalized)).map .sensitivePath

def findBanned (bin : Str) : Option SandboxError :=
  if bin ∈ bannedBinaries then some (.shellEscape ("binaire banni: ".toList ++ bin)) else none

def findUnlisted (whitelist : Option (Finset Str)) (bin : Str) : Option SandboxError :=
  whitelist.bind fun binaries ↦ if bin ∉ binaries then some (.notWhitelisted bin) else none

/-- The first reason to refuse a rewritten command with its first word. -/
def findError (policy : SandboxPolicy) (normalized bin : Str) : Option SandboxError :=
  findBanned bin <|> findPattern forbiddenPatterns normalized <|>
    (if policy.blockShellBypass then findPattern shellBypassTokens normalized else none) <|>
    (if policy.blockSensitivePaths then findPath normalized else none) <|>
    findUnlisted policy.whitelist bin

def check (policy : SandboxPolicy) (cmd : Str) : Except SandboxError Str :=
  let trimmed := trim cmd
  if trimmed.isEmpty then .error .empty
  else
    let normalized := normalize trimmed
    let bin := firstWord normalized
    match findError policy normalized bin with
    | some error => .error error
    | none => .ok bin

/-! ## What is run -/

/-- The arguments of the command, the first of which is its binary.  Without any there is nothing to
build, and this panics. -/
def buildCommand (cmd : Str) : Option (List Str) :=
  let parts := splitWhitespace cmd
  if parts = [] then none else some parts

/-- The arguments that are spawned after the check. -/
def execute (policy : SandboxPolicy) (cmd : Str) : Except SandboxError (Option (List Str)) :=
  (check policy cmd).map fun _ ↦ buildCommand (sanitizeForExecution cmd)

def executeStreaming (policy : SandboxPolicy) (cmd : Str) : Except SandboxError (Option (List Str)) :=
  (check policy cmd).map fun _ ↦ buildCommand cmd

def executeWithStdin (policy : SandboxPolicy) (cmd : Str) : Except SandboxError (Option (List Str)) :=
  (check policy cmd).map fun _ ↦ buildCommand cmd

/-- The ways to run a command. -/
def executions : List (SandboxPolicy → Str → Except SandboxError (Option (List Str))) :=
  [execute, executeStreaming, executeWithStdin]

/-! ## What the check says -/

variable {policy : SandboxPolicy} {cmd bin normalized : Str}

theorem findPattern_eq_none {patterns : List (Str × ThreatKind)}
    (hnone : findPattern patterns normalized = none) : ∀ entry ∈ patterns, ¬ entry.1 <:+: normalized := by
  intro entry hentry hoccurs
  have hfind := List.find?_eq_none.mp (Option.map_eq_none_iff.mp hnone) entry hentry
  exact hfind (decide_eq_true hoccurs)

/-- The text contains nothing that the policy refuses. -/
structure Clear (policy : SandboxPolicy) (text : Str) : Prop where
  forbidden : ∀ entry ∈ forbiddenPatterns, ¬ entry.1 <:+: text
  bypass : policy.blockShellBypass = true → ∀ entry ∈ shellBypassTokens, ¬ entry.1 <:+: text
  paths : policy.blockSensitivePaths = true → ∀ path ∈ sensitivePaths, ¬ path <:+: text

/-- The binary is the first word of the rewritten text and not banned, it is on the list if there is
one, and the text contains nothing that is refused. -/
structure Passes (policy : SandboxPolicy) (cmd bin : Str) : Prop where
  ne_nil : trim cmd ≠ []
  bin_eq : bin = firstWord (normalize (trim cmd))
  banned : bin ∉ bannedBinaries
  clear : Clear policy (normalize (trim cmd))
  listed : ∀ binaries ∈ policy.whitelist, bin ∈ binaries

theorem passes_of_check (hcheck : check policy cmd = .ok bin) : Passes policy cmd bin := by
  rw [check] at hcheck
  dsimp only at hcheck
  split at hcheck
  case isTrue => cases hcheck
  case isFalse hne =>
    split at hcheck
    case h_1 => cases hcheck
    case h_2 hnone =>
      cases hcheck
      obtain ⟨hbanned, hforbidden, hbypass, hpaths, hlisted⟩ := by
        simpa only [findError, Option.orElse_eq_none] using hnone
      exact {
        ne_nil := fun hnil ↦ hne (List.isEmpty_iff.mpr hnil)
        bin_eq := rfl
        banned := fun hmem ↦ by
          rw [findBanned, if_pos hmem] at hbanned
          cases hbanned
        clear := {
          forbidden := findPattern_eq_none hforbidden
          bypass := fun hblock ↦ by
            rw [if_pos hblock] at hbypass
            exact findPattern_eq_none hbypass
          paths := fun hblock path hpath hoccurs ↦ by
            rw [if_pos hblock] at hpaths
            exact List.find?_eq_none.mp (Option.map_eq_none_iff.mp hpaths) path hpath
              (decide_eq_true hoccurs) }
        listed := fun binaries hbinaries ↦ by
          by_contra hnot
          rw [findUnlisted, Option.mem_def.mp hbinaries, Option.bind_some, if_pos hnot] at hlisted
          cases hlisted }

end SoulSystem.Sandbox
