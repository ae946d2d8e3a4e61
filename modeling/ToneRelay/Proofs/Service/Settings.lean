import ToneRelay.Proofs.Text.Parts
import ToneRelay.Proofs.Text.Utf8
import ToneRelay.Service.Settings

/-!
# Settings and the environment

Each variable gives one value of the settings. `Variable.Writes` says which texts stand for a value,
with blanks wherever they do not matter; what no value is written as means the default.

`ofEnvironment_exact`: an environment in which every variable stands for its value gives these
settings; a variable that becomes unreadable takes its own value to the default and no other
anywhere; and of the sizes of which there must be one there is always one.
-/

namespace ToneRelay.Service

open Text (Blanks Solid Sentence Listing NumeralText)

/-- The variables that are read. -/
inductive Variable
  | port
  | program
  | programArgs
  | chunkSize
  | progressInterval
  | terminateGrace
  | startupTimeout
  | maxMinutes
  | history
  | rateLimit
  | requestTimeout
  | origins
deriving DecidableEq, Repr

namespace Variable

def name : Variable → String
  | port => "PORT"
  | program => "GENERATOR_BIN"
  | programArgs => "GENERATOR_ARGS"
  | chunkSize => "CHUNK_SIZE"
  | progressInterval => "PROGRESS_INTERVAL_BYTES"
  | terminateGrace => "TERMINATE_GRACE_MS"
  | startupTimeout => "STARTUP_TIMEOUT_SECS"
  | maxMinutes => "MAX_DURATION_MINUTES"
  | history => "SESSION_HISTORY"
  | rateLimit => "RATE_LIMIT_PER_MINUTE"
  | requestTimeout => "REQUEST_TIMEOUT_SECS"
  | origins => "CORS_ALLOWED_ORIGINS"

/-- The values of a variable. -/
def Value : Variable → Type
  | port => UInt16
  | program => String
  | programArgs => List String
  | chunkSize => UInt64
  | progressInterval => UInt64
  | terminateGrace => UInt64
  | startupTimeout => UInt64
  | maxMinutes => UInt32
  | history => UInt64
  | rateLimit => UInt32
  | requestTimeout => UInt64
  | origins => Option (List String)

/-- The value of a variable in some settings. -/
def get (s : Settings) : (v : Variable) → v.Value
  | port => s.port
  | program => s.program
  | programArgs => s.programArgs
  | chunkSize => s.chunkSize
  | progressInterval => s.progressInterval
  | terminateGrace => s.terminateGraceMillis
  | startupTimeout => s.startupTimeoutSecs
  | maxMinutes => s.maxMinutes
  | history => s.history
  | rateLimit => s.rateLimit
  | requestTimeout => s.requestTimeoutSecs
  | origins => s.origins

/-- The value of a variable that is not set. -/
def default (v : Variable) : v.Value := v.get {}

/-- A text stands for a value: a number as a numeral of its type with any blanks around it, the
program as itself, its arguments with blanks between them, the origins with commas between them and
any blanks around each. -/
def Writes : (v : Variable) → v.Value → String → Prop
  | port, n, text => NumeralText Text.max16 (UInt16.toNat n) text
  | program, p, text => text = p ∧ ¬ Blanks text.toList
  | programArgs, ws, text => Sentence ws text
  | chunkSize, n, text => NumeralText Text.max64 (UInt64.toNat n) text
  | progressInterval, n, text => NumeralText Text.max64 (UInt64.toNat n) text
  | terminateGrace, n, text => NumeralText Text.max64 (UInt64.toNat n) text
  | startupTimeout, n, text => NumeralText Text.max64 (UInt64.toNat n) text
  | maxMinutes, n, text => NumeralText Text.max32 (UInt32.toNat n) text
  | history, n, text => NumeralText Text.max64 (UInt64.toNat n) text
  | rateLimit, n, text => NumeralText Text.max32 (UInt32.toNat n) text
  | requestTimeout, n, text => NumeralText Text.max64 (UInt64.toNat n) text
  | origins, os, text => ∃ items, os = some items ∧ Listing ',' items text

/-- What an environment holds for a variable gives a value: a text of the value, or nothing for the
default. -/
def Gives (v : Variable) (x : v.Value) : Option (List UInt8) → Prop
  | some bytes => ∃ text, bytes = Text.utf8 text ∧ v.Writes x text
  | none => x = v.default

/-- Some bytes are no text of any value of a variable. -/
def Unreadable (v : Variable) (bytes : List UInt8) : Prop :=
  ∀ text, Text.decode? bytes = some text → ∀ x, ¬ v.Writes x text

/-- All variables. -/
def all : List Variable := [port, program, programArgs, chunkSize, progressInterval, terminateGrace,
  startupTimeout, maxMinutes, history, rateLimit, requestTimeout, origins]

/-- The environment that holds some texts. -/
def environment (text? : Variable → Option String) : Environment where
  value name := (all.find? fun v => v.name = name).bind fun v => (text? v).map Text.utf8

theorem value_environment (text? : Variable → Option String) (v : Variable) :
    (environment text?).value v.name = (text? v).map Text.utf8 := by
  cases v <;> rfl

theorem name_injective {v w : Variable} (h : v.name = w.name) : v = w := by
  cases v <;> cases w <;> first | rfl | exact absurd h (by decide)

/-- Settings are known by their values. -/
theorem eq_of_get {s t : Settings} (h : ∀ v : Variable, v.get s = v.get t) : s = t := by
  obtain ⟨⟩ := s
  obtain ⟨⟩ := t
  rw [Settings.mk.injEq]
  exact ⟨h port, h program, h programArgs, h chunkSize, h progressInterval, h terminateGrace,
    h startupTimeout, h maxMinutes, h history, h rateLimit, h requestTimeout, h origins⟩

end Variable

namespace Settings

open Variable (Unreadable)

variable {env : Environment} {name : String} {text : String}

/-! ## Numbers -/

/-- A type whose values are the numbers up to `max`. -/
structure Width (α : Type) (max : Nat) where
  toNat : α → Nat
  ofNat : Nat → α
  ofNat_toNat : ∀ x, ofNat (toNat x) = x
  toNat_ofNat : ∀ n ≤ max, toNat (ofNat n) = n

def width16 : Width UInt16 Text.max16 where
  toNat := UInt16.toNat
  ofNat := UInt16.ofNat
  ofNat_toNat _ := UInt16.ofNat_toNat
  toNat_ofNat _ h := UInt16.toNat_ofNat_of_lt' (Nat.lt_succ_of_le h)

def width32 : Width UInt32 Text.max32 where
  toNat := UInt32.toNat
  ofNat := UInt32.ofNat
  ofNat_toNat _ := UInt32.ofNat_toNat
  toNat_ofNat _ h := UInt32.toNat_ofNat_of_lt' (Nat.lt_succ_of_le h)

def width64 : Width UInt64 Text.max64 where
  toNat := UInt64.toNat
  ofNat := UInt64.ofNat
  ofNat_toNat _ := UInt64.ofNat_toNat
  toNat_ofNat _ h := UInt64.toNat_ofNat_of_lt' (Nat.lt_succ_of_le h)

section
variable {α : Type} {max : Nat} (width : Width α max) (default : α)

/-- A number that is written is read. -/
theorem Width.written {x : α} (h : env.text? name = some text)
    (hx : NumeralText max (width.toNat x) text) :
    ((env.natural? name max).map width.ofNat).getD default = x := by
  unfold Environment.natural?
  rw [h, Option.bind_some, Text.natural?_trimChars_eq_some_iff.2 hx]
  exact width.ofNat_toNat x

/-- Where no number is written the default is left. -/
theorem Width.unwritten
    (h : ∀ text, env.text? name = some text → ∀ x, ¬ NumeralText max (width.toNat x) text) :
    ((env.natural? name max).map width.ofNat).getD default = default := by
  have hnone : env.natural? name max = none := by
    unfold Environment.natural?
    rw [Option.bind_eq_none_iff]
    intro text htext
    rw [Option.eq_none_iff_forall_ne_some]
    intro n hn
    have hnumeral := Text.natural?_trimChars_eq_some_iff.1 hn
    refine h text htext (width.ofNat n) ?_
    rwa [width.toNat_ofNat n hnumeral.le]
  rw [hnone]
  rfl

end

theorem positive_of_ne_zero {n : UInt64} (h : n ≠ 0) : positive n = n := if_neg h

/-! ## Texts -/

theorem programIn_written (default : String) (h : env.text? "GENERATOR_BIN" = some text)
    (hblank : ¬ Blanks text.toList) : programIn env default = text := by
  unfold programIn
  rw [h]
  exact if_neg fun htrim => hblank (Text.trimChars_eq_nil_iff.1 (Text.trim_eq_empty_iff.1 htrim))

theorem programIn_default (default : String)
    (h : ∀ text, env.text? "GENERATOR_BIN" = some text → Blanks text.toList) :
    programIn env default = default := by
  unfold programIn
  split
  · next text htext =>
    exact if_pos (Text.trim_eq_empty_iff.2 (Text.trimChars_eq_nil_iff.2 (h text htext)))
  · rfl

theorem programArgsIn_written {ws : List String} (h : env.text? "GENERATOR_ARGS" = some text)
    (hws : ∀ w ∈ ws, w ≠ "" ∧ Solid w.toList) (hs : Sentence ws text) : programArgsIn env = ws := by
  unfold programArgsIn
  rw [h, Option.map_some, Text.words_sentence hs hws]
  rfl

theorem originsIn_written {os : List String} (h : env.text? "CORS_ALLOWED_ORIGINS" = some text)
    (hne : os ≠ []) (hos : ∀ o ∈ os, Text.trim o = o ∧ ',' ∉ o.toList) (hl : Listing ',' os text) :
    originsIn env = some os := by
  unfold originsIn
  rw [h, Option.map_some, Text.pieces_listing (by decide) hl hne hos]

/-! ## The values of the variables -/

/-- Settings that an environment can give: there is one of what there must be one, the program is
not blank, its arguments are words, and the origins are at least one, none of them with a comma or
with blanks at its ends. -/
structure Presentable (s : Settings) : Prop where
  chunkSize : s.chunkSize ≠ 0
  history : s.history ≠ 0
  program : ¬ Blanks s.program.toList
  programArgs : ∀ w ∈ s.programArgs, w ≠ "" ∧ Solid w.toList
  origins : ∀ os, s.origins = some os → os ≠ [] ∧ ∀ o ∈ os, Text.trim o = o ∧ ',' ∉ o.toList

/-- The plain text of a value in some settings: the digits of a number, a blank after each argument,
nothing but commas between the origins. -/
def plainText? (s : Settings) : Variable → Option String
  | .port => some (String.ofList (Text.decimal s.port.toNat))
  | .program => some s.program
  | .programArgs => some (String.ofList (s.programArgs.flatMap fun w => w.toList ++ [' ']))
  | .chunkSize => some (String.ofList (Text.decimal s.chunkSize.toNat))
  | .progressInterval => some (String.ofList (Text.decimal s.progressInterval.toNat))
  | .terminateGrace => some (String.ofList (Text.decimal s.terminateGraceMillis.toNat))
  | .startupTimeout => some (String.ofList (Text.decimal s.startupTimeoutSecs.toNat))
  | .maxMinutes => some (String.ofList (Text.decimal s.maxMinutes.toNat))
  | .history => some (String.ofList (Text.decimal s.history.toNat))
  | .rateLimit => some (String.ofList (Text.decimal s.rateLimit.toNat))
  | .requestTimeout => some (String.ofList (Text.decimal s.requestTimeoutSecs.toNat))
  | .origins => s.origins.map fun os => String.ofList ([','].intercalate (os.map String.toList))

/-- The plain texts give the settings. -/
theorem gives_plainText? {s : Settings} (hs : s.Presentable) (v : Variable) :
    v.Gives (v.get s) ((Variable.environment s.plainText?).value v.name) := by
  have hle16 (n : UInt16) : n.toNat ≤ Text.max16 := Nat.le_of_lt_succ n.toNat_lt
  have hle32 (n : UInt32) : n.toNat ≤ Text.max32 := Nat.le_of_lt_succ n.toNat_lt
  have hle64 (n : UInt64) : n.toNat ≤ Text.max64 := Nat.le_of_lt_succ n.toNat_lt
  rw [Variable.value_environment]
  cases v with
  | port => exact ⟨_, rfl, Text.numeralText_decimal (hle16 _)⟩
  | maxMinutes | rateLimit => exact ⟨_, rfl, Text.numeralText_decimal (hle32 _)⟩
  | chunkSize | progressInterval | terminateGrace | startupTimeout | history | requestTimeout =>
    exact ⟨_, rfl, Text.numeralText_decimal (hle64 _)⟩
  | program => exact ⟨_, rfl, rfl, hs.program⟩
  | programArgs => exact ⟨_, rfl, Text.sentence_flatMap _⟩
  | origins =>
    cases hos : s.origins with
    | none =>
      simp only [plainText?, hos]
      exact hos
    | some os =>
      simp only [plainText?, hos]
      exact ⟨_, rfl, os, hos, Text.listing_intercalate ',' os⟩

/-- A value that is written is read. -/
theorem get_written {s : Settings} (hs : s.Presentable) {v : Variable}
    (h : env.text? v.name = some text) (hw : v.Writes (v.get s) text) :
    v.get (ofEnvironment env) = v.get s := by
  cases v with
  | port => exact width16.written _ h hw
  | maxMinutes | rateLimit => exact width32.written _ h hw
  | progressInterval | terminateGrace | startupTimeout | requestTimeout =>
    exact width64.written _ h hw
  | chunkSize =>
    exact (congrArg positive (width64.written _ h hw)).trans (positive_of_ne_zero hs.chunkSize)
  | history =>
    exact (congrArg positive (width64.written _ h hw)).trans (positive_of_ne_zero hs.history)
  | program =>
    obtain ⟨rfl, hblank⟩ := hw
    exact programIn_written _ h hblank
  | programArgs => exact programArgsIn_written h hs.programArgs hw
  | origins =>
    obtain ⟨os, hos, hl⟩ := hw
    obtain ⟨hne, hclear⟩ := hs.origins os hos
    exact (originsIn_written h hne hclear hl).trans hos.symm

/-- A variable without a text of a value has the default. -/
theorem get_unwritten {v : Variable}
    (h : ∀ text, env.text? v.name = some text → ∀ x, ¬ v.Writes x text) :
    v.get (ofEnvironment env) = v.default := by
  cases v with
  | port => exact width16.unwritten _ h
  | maxMinutes | rateLimit => exact width32.unwritten _ h
  | progressInterval | terminateGrace | startupTimeout | requestTimeout =>
    exact width64.unwritten _ h
  | chunkSize | history => exact congrArg positive (width64.unwritten _ h)
  | program =>
    refine programIn_default _ ?_
    intro text htext
    by_contra hblank
    exact h text htext text ⟨rfl, hblank⟩
  | programArgs =>
    have hnone : env.text? "GENERATOR_ARGS" = none := by
      rw [Option.eq_none_iff_forall_ne_some]
      exact fun text htext => h text htext [text] (Text.sentence_self text)
    show programArgsIn env = []
    unfold programArgsIn
    rw [hnone]
    rfl
  | origins =>
    have hnone : env.text? "CORS_ALLOWED_ORIGINS" = none := by
      rw [Option.eq_none_iff_forall_ne_some]
      exact fun text htext => h text htext (some [text]) ⟨[text], rfl, Text.listing_self ',' text⟩
    show originsIn env = none
    unfold originsIn
    rw [hnone]
    rfl

/-- A variable has the value that the environment gives. -/
theorem get_given {s : Settings} (hs : s.Presentable) {v : Variable}
    (h : v.Gives (v.get s) (env.value v.name)) : v.get (ofEnvironment env) = v.get s := by
  cases hvalue : env.value v.name with
  | none =>
    rw [hvalue] at h
    have hnone : env.text? v.name = none := by
      unfold Environment.text?
      rw [hvalue]
      rfl
    rw [get_unwritten fun text htext => by rw [hnone] at htext; cases htext]
    exact h.symm
  | some bytes =>
    rw [hvalue] at h
    obtain ⟨text, rfl, hw⟩ := h
    refine get_written hs ?_ hw
    unfold Environment.text?
    rw [hvalue]
    exact Text.decode?_utf8 text

/-- A variable that is unreadable has the default. -/
theorem get_unreadable {v : Variable} {bytes : List UInt8} (hvalue : env.value v.name = some bytes)
    (h : v.Unreadable bytes) : v.get (ofEnvironment env) = v.default := by
  refine get_unwritten ?_
  unfold Environment.text?
  rw [hvalue]
  exact h

/-- A value depends on its variable only. -/
theorem get_congr {env env' : Environment} {v : Variable}
    (h : env.value v.name = env'.value v.name) :
    v.get (ofEnvironment env) = v.get (ofEnvironment env') := by
  have htext : env.text? v.name = env'.text? v.name := by
    unfold Environment.text?
    rw [h]
  have hnatural (max : Nat) : env.natural? v.name max = env'.natural? v.name max := by
    unfold Environment.natural?
    rw [htext]
  cases v with
  | port | maxMinutes | rateLimit | progressInterval | terminateGrace | startupTimeout
    | requestTimeout => exact congrArg (fun n => (Option.map _ n).getD _) (hnatural _)
  | chunkSize | history =>
    exact congrArg (fun n => positive ((Option.map _ n).getD _)) (hnatural _)
  | program =>
    have hprogram : env.text? "GENERATOR_BIN" = env'.text? "GENERATOR_BIN" := htext
    show programIn env _ = programIn env' _
    unfold programIn
    rw [hprogram]
  | programArgs => exact congrArg (fun text => (Option.map Text.words text).getD []) htext
  | origins => exact congrArg (Option.map _) htext

/-- **Settings and the environment.** The plain texts of settings give them, settings are read from
every environment that gives them, a variable that becomes unreadable only loses its own value, and
there is always one of what there must be one. -/
theorem ofEnvironment_exact :
    (∀ s : Settings, s.Presentable →
      ∀ v : Variable, v.Gives (v.get s) ((Variable.environment s.plainText?).value v.name)) ∧
    (∀ (s : Settings) (env : Environment), s.Presentable →
      (∀ v : Variable, v.Gives (v.get s) (env.value v.name)) → ofEnvironment env = s) ∧
    (∀ (env : Environment) (v : Variable) (bytes : List UInt8), v.Unreadable bytes →
      ∀ w : Variable, w.get (ofEnvironment (env.set v.name bytes)) =
        if w = v then w.default else w.get (ofEnvironment env)) ∧
    ∀ env : Environment, (ofEnvironment env).chunkSize ≠ 0 ∧ (ofEnvironment env).history ≠ 0 := by
  refine ⟨fun s hs => gives_plainText? hs, ?_, ?_, ?_⟩
  · intro s env hs h
    exact Variable.eq_of_get fun v => get_given hs (h v)
  · intro env v bytes hbytes w
    by_cases hw : w = v
    · subst hw
      rw [if_pos rfl]
      exact get_unreadable (if_pos rfl) hbytes
    · rw [if_neg hw]
      exact get_congr (if_neg fun hname => hw (Variable.name_injective hname))
  · intro env
    exact ⟨chunkSize_ofEnvironment env, history_ofEnvironment env⟩

/-! ## The greatest numbers -/

/-- Settings with the greatest number of each type. -/
def greatest : Settings where
  port := 65535
  program := "tone generator"
  programArgs := ["-quiet", "-v"]
  chunkSize := 18446744073709551615
  progressInterval := 18446744073709551615
  terminateGraceMillis := 18446744073709551615
  startupTimeoutSecs := 18446744073709551615
  maxMinutes := 4294967295
  history := 18446744073709551615
  rateLimit := 4294967295
  requestTimeoutSecs := 18446744073709551615
  origins := some ["https://a.example", ""]

/-- A text of each of their values. -/
def greatestText : Variable → String
  | .port => " 65535\n"
  | .program => "tone generator"
  | .programArgs => " -quiet\t -v "
  | .maxMinutes | .rateLimit => "4294967295"
  | .origins => " https://a.example , "
  | _ => "\t18446744073709551615"

/-- The environment with these texts. -/
def greatestEnvironment : Environment := Variable.environment fun v => some (greatestText v)

theorem writes_greatest (v : Variable) : v.Writes (v.get greatest) (greatestText v) := by
  have hblank : Blanks [' '] := by decide
  have hblanks : Blanks ['\t', ' '] := by decide
  cases v with
  | program => exact ⟨rfl, by decide +kernel⟩
  | programArgs =>
    exact ⟨[' '], _, hblank, .cons hblanks nofun (.cons hblank nofun .nil), by decide +kernel⟩
  | origins =>
    refine ⟨_, rfl, [" https://a.example ".toList, [' ']], ?_, by decide +kernel⟩
    refine .cons ⟨[' '], [' '], hblank, hblank, by decide +kernel⟩ (.cons ?_ .nil)
    exact ⟨[' '], [], hblank, nofun, rfl⟩
  | _ => exact Text.natural?_trimChars_eq_some_iff.1 (by decide +kernel)

theorem presentable_greatest : greatest.Presentable where
  chunkSize := by decide
  history := by decide
  program := by decide +kernel
  programArgs w hw := by
    rcases List.mem_pair.1 hw with rfl | rfl <;> exact ⟨by decide, by decide +kernel⟩
  origins os hos := by
    cases hos
    refine ⟨by decide, fun o ho => ?_⟩
    rcases List.mem_pair.1 ho with rfl | rfl <;> exact ⟨by decide +kernel, by decide +kernel⟩

/-- The greatest numbers are read, and one above that of its type is not. -/
theorem ofEnvironment_exact_greatest :
    let bytes := Text.utf8 "65536"
    greatest.Presentable ∧
      (∀ v : Variable, v.Gives (v.get greatest) (greatestEnvironment.value v.name)) ∧
      ofEnvironment greatestEnvironment = greatest ∧ Variable.port.Unreadable bytes ∧
      ofEnvironment (greatestEnvironment.set Variable.port.name bytes) =
        { greatest with port := 8000 } := by
  have hgives (v : Variable) : v.Gives (v.get greatest) (greatestEnvironment.value v.name) := by
    rw [greatestEnvironment, Variable.value_environment]
    exact ⟨_, rfl, writes_greatest v⟩
  have hunreadable : Variable.port.Unreadable (Text.utf8 "65536") := by
    intro text htext n hn
    have hnone : Text.natural? Text.max16 (Text.trimChars "65536".toList) = none := by
      decide +kernel
    rw [Text.decode?_utf8] at htext
    cases htext
    rw [Text.natural?_trimChars_eq_some_iff.2 hn] at hnone
    cases hnone
  obtain ⟨-, hread, hset, -⟩ := ofEnvironment_exact
  have hgreatest := hread greatest greatestEnvironment presentable_greatest hgives
  refine ⟨presentable_greatest, hgives, hgreatest, hunreadable, ?_⟩
  refine Variable.eq_of_get fun w => ?_
  rw [hset greatestEnvironment .port _ hunreadable w, hgreatest]
  cases w <;> rfl

end Settings

end ToneRelay.Service
