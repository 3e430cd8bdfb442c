import BareImports.Settings
import Mathlib.Tactic.Common

/-!
# What a caller asks for overrides the settings file

* `Loading.outcome` : what a loading ends in, without its warnings;
* `Setting` : one of the settings; `Setting.reset` sets it back to its default, `Setting.IsGiven` : a caller asks for it,
  `Setting.IsUsable` : a file has no value for it that cannot be taken;
* `map_reset_outcome_ofPairs`, `override_reset` : files that differ in one setting give settings that differ in it only, and what
  a caller asks for hides that difference;
* `DifferAt`, `effective_overrides` : which settings count, for two files that differ in one setting;
* `desk`, `holds` : folders with a settings file of one line.
-/

namespace BareImports.Settings

open Text

/-! ## Outcomes -/

/-- What a loading ends in, without the warnings on the way. -/
def Loading.outcome {α : Type} : Loading α → Except Log.Fault α
  | .ok (a, _) => .ok a
  | .error (f, _) => .error f

theorem outcome_andThen {α β : Type} (x : Loading α) (f : α → Loading β) :
    (Loading.andThen x f).outcome = x.outcome >>= fun a => (f a).outcome := by
  rcases x with e | ⟨a, log⟩
  · rfl
  · show (Loading.andThen (.ok (a, log)) f).outcome = (f a).outcome
    rcases hf : f a with ⟨e, more⟩ | ⟨b, more⟩ <;> simp only [Loading.andThen, hf] <;> rfl

/-! ## Single settings -/

/-- A setting. -/
inductive Setting
  | cdnUrl
  | timeout
  | retries
  | retryDelay
  | importMap
  | logLevel
  | logFile

namespace Setting

/-- The key of a setting in a settings file. -/
def key : Setting → String
  | cdnUrl => "cdn_url"
  | timeout => "timeout"
  | retries => "retries"
  | retryDelay => "retry_delay"
  | importMap => "import_map"
  | logLevel => "log_level"
  | logFile => "log_file"

/-- Settings with one of them set back to its default. -/
def reset (setting : Setting) (s : Settings) : Settings :=
  let d : Settings := {}
  match setting with
  | cdnUrl => { s with cdnUrl := d.cdnUrl }
  | timeout => { s with timeout := d.timeout }
  | retries => { s with retries := d.retries }
  | retryDelay => { s with retryDelay := d.retryDelay }
  | importMap => { s with importMap := d.importMap }
  | logLevel => { s with logLevel := d.logLevel }
  | logFile => { s with logFile := d.logFile }

/-- A caller asks for a setting. No caller can ask for the delay. -/
def IsGiven (o : Overrides) : Setting → Prop
  | cdnUrl => (Log.given? o.cdnUrl).isSome
  | timeout => o.timeout.isSome
  | retries => o.retries.isSome
  | retryDelay => False
  | importMap => (Log.given? o.importMap).isSome
  | logLevel => (Log.given? o.logLevel).isSome
  | logFile => (Log.given? o.logFile).isSome

/-- A value in a settings file can be taken for a setting: a text, a number or a file can be made out of it. -/
def Converts (t : Files.Tree) : Setting → Value → Prop
  | cdnUrl, v | logLevel, v | logFile, v => ∃ s, v.asText = .ok s
  | timeout, v | retryDelay, v => v = .null ∨ ∃ x, v.asFloat = .ok x
  | retries, v => v = .null ∨ ∃ n, v.asInt = .ok n
  | importMap, v => ∀ path, v = .text path → ∃ m, (load t (some path)).outcome = .ok m

/-- A settings file has no value for a setting that cannot be taken. -/
def IsUsable (t : Files.Tree) (kvs : List (Value × Value)) (setting : Setting) : Prop :=
  ∀ v ∈ Value.lookup? setting.key kvs, setting.Converts t v

end Setting

variable {t t' : Files.Tree} {kvs kvs' : List (Value × Value)} {setting : Setting} {o : Overrides}

theorem convertOr_ok {α : Type} {d : α} {f : Value → Except Log.Fault α} {v? : Option Value}
    (h : ∀ v ∈ v?, ∃ x, f v = .ok x) : ∃ x, convertOr d f v? = .ok x := by
  cases v? with
  | none => exact ⟨d, rfl⟩
  | some v => exact h v rfl

theorem mem_given? {key : String} {v : Value} (h : v ∈ given? kvs key) : v ∈ Value.lookup? key kvs :=
  (Option.mem_filter_iff.1 h).1

theorem mem_present? {key : String} {v : Value} (h : v ∈ present? kvs key) : v ∈ Value.lookup? key kvs ∧ v ≠ .null := by
  obtain ⟨hv, hne⟩ := Option.mem_filter_iff.1 h
  refine ⟨hv, ?_⟩
  rintro rfl
  exact Bool.noConfusion hne

namespace Setting

/-- What a mapping has for a setting other than the import map is taken. -/
def IsRead (kvs : List (Value × Value)) (setting : Setting) : Prop :=
  let d : Settings := {}
  match setting with
  | cdnUrl => ∃ x, convertOr d.cdnUrl Value.asText (given? kvs "cdn_url") = .ok x
  | timeout => ∃ x, convertOr d.timeout Value.asFloat (present? kvs "timeout") = .ok x
  | retries => ∃ x, convertOr d.retries Value.asInt (present? kvs "retries") = .ok x
  | retryDelay => ∃ x, convertOr d.retryDelay Value.asFloat (present? kvs "retry_delay") = .ok x
  | importMap => True
  | logLevel => ∃ x, convertOr d.logLevel (fun v => v.asText.map toUpper) (given? kvs "log_level") = .ok x
  | logFile => ∃ x, convertOr d.logFile (fun v => v.asText.map some) (given? kvs "log_file") = .ok x

theorem isRead_of_isUsable (h : setting.IsUsable t kvs) : setting.IsRead kvs := by
  have hmap : ∀ {α : Type} (f : String → α) {v : Value}, (∃ s, v.asText = .ok s) → ∃ x, v.asText.map f = .ok x := by
    rintro α f v ⟨s, hs⟩
    exact ⟨f s, by rw [hs]; rfl⟩
  have hnumber : ∀ {α : Type} {f : Value → Except Log.Fault α} {v : Value} {key : String}, v ∈ present? kvs key →
      (v ∈ Value.lookup? key kvs → v = .null ∨ ∃ x, f v = .ok x) → ∃ x, f v = .ok x :=
    fun hv hf => (hf (mem_present? hv).1).resolve_left (mem_present? hv).2
  cases setting with
  | cdnUrl => exact convertOr_ok fun v hv => h v (mem_given? hv)
  | timeout => exact convertOr_ok fun v hv => hnumber hv (h v)
  | retries => exact convertOr_ok fun v hv => hnumber hv (h v)
  | retryDelay => exact convertOr_ok fun v hv => hnumber hv (h v)
  | importMap => trivial
  | logLevel => exact convertOr_ok fun v hv => hmap toUpper (h v (mem_given? hv))
  | logFile => exact convertOr_ok fun v hv => hmap some (h v (mem_given? hv))

end Setting

/-! ## The settings of a mapping -/

theorem map_reset_ofScalars (hdiffer : ∀ k, k ≠ setting.key → Value.lookup? k kvs = Value.lookup? k kvs')
    (h : setting.IsRead kvs) (h' : setting.IsRead kvs') :
    setting.reset <$> ofScalars kvs = setting.reset <$> ofScalars kvs' := by
  have hgiven : ∀ k, k ≠ setting.key → given? kvs k = given? kvs' k := fun k hk => by rw [given?, given?, hdiffer k hk]
  have hpresent : ∀ k, k ≠ setting.key → present? kvs k = present? kvs' k := fun k hk => by
    rw [present?, present?, hdiffer k hk]
  cases setting
  case importMap => simp (disch := decide) only [ofScalars, hgiven, hpresent]
  all_goals
    obtain ⟨x, hx⟩ := h
    obtain ⟨x', hx'⟩ := h'
    dsimp only at hx hx'
    simp (disch := decide) only [ofScalars, hgiven, hpresent, map_bind, hx, hx']
    rfl

theorem map_reset_ofScalars_of_absent (h : ∀ v ∈ Value.lookup? setting.key kvs, v = .null) :
    setting.reset <$> ofScalars kvs = ofScalars kvs := by
  have hgiven : given? kvs setting.key = none := by
    refine Option.eq_none_iff_forall_not_mem.2 fun v hv => ?_
    obtain ⟨hv, htruthy⟩ := Option.mem_filter_iff.1 hv
    rw [h v hv] at htruthy
    exact Bool.noConfusion htruthy
  have hpresent : present? kvs setting.key = none :=
    Option.eq_none_iff_forall_not_mem.2 fun v hv => (mem_present? hv).2 (h v (mem_present? hv).1)
  cases setting <;>
    · simp only [Setting.key] at hgiven hpresent
      simp only [ofScalars, hgiven, hpresent, convertOr, map_bind]
      rfl

theorem importMap_ofScalars {s : Settings} (h : ofScalars kvs = .ok s) : s.importMap = [] := by
  have hreset : Setting.importMap.reset <$> ofScalars kvs = ofScalars kvs := by
    simp only [ofScalars, map_bind]
    rfl
  rw [h] at hreset
  exact congrArg Settings.importMap (Except.ok.inj hreset).symm

/-- The import map of a mapping. -/
def importMapOf (t : Files.Tree) (kvs : List (Value × Value)) : Except Log.Fault (List (Value × Value)) :=
  match Value.lookup? "import_map" kvs with
  | some (.map m) => .ok m
  | some (.text path) => (load t (some path)).outcome
  | _ => .ok []

theorem outcome_ofPairs (t : Files.Tree) (kvs : List (Value × Value)) : (ofPairs t kvs).outcome =
    ofScalars kvs >>= fun s => importMapOf t kvs >>= fun m => pure { s with importMap := m } := by
  unfold ofPairs importMapOf
  rcases hs : ofScalars kvs with f | s
  · rfl
  have hmap : s = { s with importMap := [] } := by rw [← importMap_ofScalars hs]
  generalize Value.lookup? "import_map" kvs = v?
  match v? with
  | some (.map m) => rfl
  | some (.text path) => rcases hload : load t (some path) with f | ⟨m, log⟩ <;> simp only [hload] <;> rfl
  | none | some .null | some (.bool _) | some (.int _) | some (.float _) | some (.other _) | some (.list _) =>
    exact congrArg Except.ok hmap

theorem Setting.eq_importMap (h : setting.key = "import_map") : setting = .importMap := by
  cases setting
  case importMap => rfl
  all_goals exact absurd h (by decide)

theorem map_reset_with {setting : Setting} (hkey : setting.key ≠ "import_map") (x : Except Log.Fault Settings)
    (m? : Except Log.Fault (List (Value × Value))) :
    setting.reset <$> (x >>= fun s => m? >>= fun m => pure { s with importMap := m }) =
      (setting.reset <$> x) >>= fun s => m? >>= fun m => pure { s with importMap := m } := by
  rcases x with f | s
  · rfl
  rcases m? with f | m
  · rfl
  cases setting
  case importMap => exact absurd rfl hkey
  all_goals rfl

theorem importMapOf_ok (h : Setting.IsUsable t kvs .importMap) : ∃ m, importMapOf t kvs = .ok m := by
  unfold importMapOf
  split
  · exact ⟨_, rfl⟩
  · next path hv => exact h _ hv path rfl
  · exact ⟨_, rfl⟩

theorem importMapOf_congr (hv : Value.lookup? "import_map" kvs = Value.lookup? "import_map" kvs')
    (hmaps : ∀ path, Value.lookup? "import_map" kvs = some (.text path) →
      (load t (some path)).outcome = (load t' (some path)).outcome) :
    importMapOf t kvs = importMapOf t' kvs' := by
  unfold importMapOf
  rw [← hv]
  split
  · rfl
  · next path hpath => exact hmaps path hpath
  · rfl

/-- Mappings that differ in a usable value only give settings that differ in the setting only. -/
theorem map_reset_outcome_ofPairs (hdiffer : ∀ k, k ≠ setting.key → Value.lookup? k kvs = Value.lookup? k kvs')
    (hmaps : setting.key ≠ "import_map" → ∀ path, Value.lookup? "import_map" kvs = some (.text path) →
      (load t (some path)).outcome = (load t' (some path)).outcome)
    (h : setting.IsUsable t kvs) (h' : setting.IsUsable t' kvs') :
    setting.reset <$> (ofPairs t kvs).outcome = setting.reset <$> (ofPairs t' kvs').outcome := by
  have hscalars := map_reset_ofScalars hdiffer (Setting.isRead_of_isUsable h) (Setting.isRead_of_isUsable h')
  rw [outcome_ofPairs, outcome_ofPairs]
  by_cases hkey : setting.key = "import_map"
  · obtain rfl := Setting.eq_importMap hkey
    obtain ⟨m, hm⟩ := importMapOf_ok h
    obtain ⟨m', hm'⟩ := importMapOf_ok h'
    have hlast : ∀ (x : Except Log.Fault Settings) (m : List (Value × Value)),
        Setting.importMap.reset <$> (x >>= fun s => Except.ok m >>= fun m => pure { s with importMap := m }) =
          Setting.importMap.reset <$> x := by
      intro x m
      cases x <;> rfl
    rw [hm, hm', hlast, hlast, hscalars]
  · rw [map_reset_with hkey, map_reset_with hkey, hscalars, importMapOf_congr (hdiffer _ (Ne.symm hkey)) (hmaps hkey)]

theorem map_reset_outcome_ofPairs_of_absent (h : ∀ v ∈ Value.lookup? setting.key kvs, v = .null) :
    setting.reset <$> (ofPairs t kvs).outcome = (ofPairs t kvs).outcome := by
  rw [outcome_ofPairs]
  by_cases hkey : setting.key = "import_map"
  · obtain rfl := Setting.eq_importMap hkey
    have hnone : importMapOf t kvs = .ok [] := by
      unfold importMapOf
      split
      · next hv => cases h _ hv
      · next hv => cases h _ hv
      · rfl
    rw [hnone]
    cases ofScalars kvs <;> rfl
  · rw [map_reset_with hkey, map_reset_ofScalars_of_absent h]

/-! ## What a caller asks for -/

theorem override_reset (h : setting.IsGiven o) (s : Settings) : override t o (setting.reset s) = override t o s := by
  cases setting
  case retryDelay => exact h.elim
  case importMap =>
    obtain ⟨path, hpath⟩ := Option.isSome_iff_exists.1 h
    simp only [override, hpath, Setting.reset]
  all_goals
    obtain ⟨x, hx⟩ := Option.isSome_iff_exists.1 h
    simp only [override, orGiven, hx, Setting.reset]
    rfl

theorem outcome_override_congr (hload : ∀ path, Log.given? o.importMap = some path →
    (load t (some path)).outcome = (load t' (some path)).outcome) (s : Settings) :
    (override t o s).outcome = (override t' o s).outcome := by
  unfold override
  split
  · rfl
  · next path hpath => rw [outcome_andThen, outcome_andThen, hload path hpath]

theorem map_reset_override (h : ¬ setting.IsGiven o) (s : Settings) :
    setting.reset <$> (override t o s).outcome = (override t o (setting.reset s)).outcome := by
  unfold override
  cases setting
  case importMap =>
    rw [show Log.given? o.importMap = none from Option.not_isSome_iff_eq_none.1 h]
    rfl
  case retryDelay =>
    split
    · rfl
    · next path hpath =>
      rw [outcome_andThen, outcome_andThen]
      cases (load t (some path)).outcome <;> rfl
  all_goals
    have hnone := Option.not_isSome_iff_eq_none.1 h
    simp only [orGiven, hnone]
    split
    · rfl
    · next path hpath =>
      rw [outcome_andThen, outcome_andThen]
      cases (load t (some path)).outcome <;> rfl

/-! ## The settings that count -/

theorem bind_eq_of_map_eq {α β γ : Type} {g : α → β} {f : α → Except Log.Fault γ} {k : β → Except Log.Fault γ}
    (hf : ∀ a, f a = k (g a)) (x : Except Log.Fault α) : x >>= f = (g <$> x) >>= k := by
  cases x with
  | error e => rfl
  | ok a => exact hf a

theorem outcome_effective {log : List Log.Entry} (hload : load t o.config = .ok (kvs, log)) :
    (effective t o).outcome = (ofPairs t kvs).outcome >>= fun s => (override t o s).outcome := by
  rw [effective, outcome_andThen, hload]
  exact outcome_andThen _ _

theorem bind_ok {α β : Type} {x : Except Log.Fault α} {f : α → Except Log.Fault β} {b : β} (h : x >>= f = .ok b) :
    ∃ a, x = .ok a ∧ f a = .ok b := by
  cases x with
  | error e => cases h
  | ok a => exact ⟨a, rfl, h⟩

theorem reset_eq_of_absent {log : List Log.Entry} {s : Settings} (hload : load t o.config = .ok (kvs, log))
    (habsent : ∀ v ∈ Value.lookup? setting.key kvs, v = .null) (hgiven : ¬ setting.IsGiven o)
    (h : (effective t o).outcome = .ok s) : setting.reset s = s := by
  rw [outcome_effective hload] at h
  obtain ⟨s₀, hs₀, hs⟩ := bind_ok h
  have hreset := map_reset_outcome_ofPairs_of_absent (t := t) habsent
  rw [hs₀] at hreset
  have hmap := map_reset_override hgiven s₀ (t := t)
  rw [show setting.reset s₀ = s₀ from Except.ok.inj hreset, hs] at hmap
  exact Except.ok.inj hmap

theorem isRead_of_ok {s : Settings} (h : ofScalars kvs = .ok s) (setting : Setting) : setting.IsRead kvs := by
  obtain ⟨cdnUrl, hcdnUrl, h⟩ := bind_ok h
  obtain ⟨timeout, htimeout, h⟩ := bind_ok h
  obtain ⟨retries, hretries, h⟩ := bind_ok h
  obtain ⟨retryDelay, hretryDelay, h⟩ := bind_ok h
  obtain ⟨logLevel, hlogLevel, h⟩ := bind_ok h
  obtain ⟨logFile, hlogFile, -⟩ := bind_ok h
  cases setting with
  | cdnUrl => exact ⟨cdnUrl, hcdnUrl⟩
  | timeout => exact ⟨timeout, htimeout⟩
  | retries => exact ⟨retries, hretries⟩
  | retryDelay => exact ⟨retryDelay, hretryDelay⟩
  | importMap => trivial
  | logLevel => exact ⟨logLevel, hlogLevel⟩
  | logFile => exact ⟨logFile, hlogFile⟩

theorem asText_of_not_truthy {v : Value} (h : v.truthy = false) : ∃ s, v.asText = .ok s := by
  have hshort : v.holdsLong = false := by
    cases v with
    | int n =>
      obtain rfl : n = 0 := by simpa [Value.truthy] using h
      decide +kernel
    | list xs =>
      obtain rfl : xs = [] := by simpa [Value.truthy] using h
      rfl
    | map kvs =>
      obtain rfl : kvs = [] := by simpa [Value.truthy] using h
      rfl
    | _ => rfl
  exact ⟨v.shown, if_neg (by rw [hshort]; decide)⟩

theorem isUsable_of_isRead (h : setting.IsRead kvs) (hmap : ∃ m, importMapOf t kvs = .ok m) : setting.IsUsable t kvs := by
  intro v hv
  have htext : ∀ {α : Type} {d x : α} {f : Value → Except Log.Fault α}, (∀ {x}, f v = .ok x → ∃ s, v.asText = .ok s) →
      convertOr d f (given? kvs setting.key) = .ok x → ∃ s, v.asText = .ok s := by
    intro α d x f hf hread
    cases htruthy : v.truthy with
    | false => exact asText_of_not_truthy htruthy
    | true =>
      rw [show given? kvs setting.key = some v from Option.mem_filter_iff.2 ⟨hv, htruthy⟩] at hread
      exact hf hread
  have hnumber : ∀ {α : Type} {d x : α} {f : Value → Except Log.Fault α},
      convertOr d f (present? kvs setting.key) = .ok x → v = .null ∨ ∃ x, f v = .ok x := by
    intro α d x f hread
    cases v with
    | null => exact .inl rfl
    | _ =>
      rw [show present? kvs setting.key = some _ from Option.mem_filter_iff.2 ⟨hv, rfl⟩] at hread
      exact .inr ⟨x, hread⟩
  have hwritten : ∀ {α : Type} {g : String → α} {x : α}, v.asText.map g = .ok x → ∃ s, v.asText = .ok s := by
    intro α g x hx
    rcases hs : v.asText with f | s
    · rw [hs] at hx
      cases hx
    · exact ⟨s, rfl⟩
  cases setting with
  | cdnUrl =>
    obtain ⟨x, hx⟩ := h
    exact htext (fun h => ⟨_, h⟩) hx
  | timeout =>
    obtain ⟨x, hx⟩ := h
    exact hnumber hx
  | retries =>
    obtain ⟨x, hx⟩ := h
    exact hnumber hx
  | retryDelay =>
    obtain ⟨x, hx⟩ := h
    exact hnumber hx
  | importMap =>
    rintro path rfl
    obtain ⟨m, hm⟩ := hmap
    rw [importMapOf, show Value.lookup? "import_map" kvs = some (.text path) from hv] at hm
    exact ⟨m, hm⟩
  | logLevel =>
    obtain ⟨x, hx⟩ := h
    exact htext hwritten hx
  | logFile =>
    obtain ⟨x, hx⟩ := h
    exact htext hwritten hx

/-- Settings can be made of a mapping only if each of its values can be taken. -/
theorem isUsable_of_outcome {log : List Log.Entry} {s : Settings} (hload : load t o.config = .ok (kvs, log))
    (h : (effective t o).outcome = .ok s) (setting : Setting) : setting.IsUsable t kvs := by
  rw [outcome_effective hload, outcome_ofPairs] at h
  obtain ⟨s₁, h, -⟩ := bind_ok h
  obtain ⟨s₀, hscalars, h⟩ := bind_ok h
  obtain ⟨m, hm, -⟩ := bind_ok h
  exact isUsable_of_isRead (isRead_of_ok hscalars setting) ⟨m, hm⟩

/-- Two settings files differ in the value of one setting, and the import maps that are read besides are the same. -/
structure DifferAt (setting : Setting) (o : Overrides) (t : Files.Tree) (kvs : List (Value × Value)) (t' : Files.Tree)
    (kvs' : List (Value × Value)) : Prop where
  /-- The other keys have the same values. -/
  others : ∀ k, k ≠ setting.key → Value.lookup? k kvs = Value.lookup? k kvs'
  /-- The import map that the files name. -/
  named : setting.key ≠ "import_map" → ∀ path, Value.lookup? "import_map" kvs = some (.text path) →
    (load t (some path)).outcome = (load t' (some path)).outcome
  /-- The import map that the caller names. -/
  asked : ∀ path, Log.given? o.importMap = some path → (load t (some path)).outcome = (load t' (some path)).outcome

/-- A folder with a settings file. -/
def desk (text : String) : Files.Tree := ⟨[], [], [(["c.json".toList], Utf8.encode text.toList)]⟩

/-- Whether a loading gives a mapping of one key to an integer or a text. -/
def holds (key : String) (v : Int ⊕ String) : Loading (List (Value × Value)) → Bool
  | .ok ([(.text k, .int n)], []) => k == key && decide (v = .inl n)
  | .ok ([(.text k, .text s)], []) => k == key && decide (v = .inr s)
  | _ => false

theorem eq_of_holds {key : String} {v : Int ⊕ String} {x : Loading (List (Value × Value))} (h : holds key v x = true) :
    x = .ok ([(.text key, v.elim .int .text)], []) := by
  unfold holds at h
  split at h
  all_goals first
    | exact Bool.noConfusion h
    | obtain ⟨hk, hv⟩ := Bool.and_eq_true_iff.1 h
      obtain rfl := eq_of_beq hk
      obtain rfl := of_decide_eq_true hv
      rfl

theorem lookup?_single {key k : String} (v : Value) (h : k ≠ key) : Value.lookup? k [(.text key, v)] = none := by
  have hne : (Value.text key).isText k = false := beq_false_of_ne (Ne.symm h)
  simp only [Value.lookup?, List.find?_cons, hne, List.find?_nil, Option.map_none]

end BareImports.Settings
