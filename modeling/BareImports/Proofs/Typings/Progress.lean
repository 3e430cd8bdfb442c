import BareImports.Proofs.Cdn.Progress
import BareImports.Proofs.Typings.Once
import Mathlib.Data.Prod.Lex

/-!
# The crawling goes on

* `Stage.weight`, `Session.labour s` : how much is still to be done for a stage, and for all crawls and files that there are;
* `Session.rank s` : that, the calls that have still to find their downloads and the requests in flight, and the calls that
  can go on;
* `take_rank` : an event that adds no crawls changes nothing or makes this less;
* `stuck_over` : where nothing can go on, all crawls have ended and all files are known.
-/

namespace BareImports.Typings

open Text Cdn Location

/-! ## What is still to be done -/

/-- How many changes a stage has still to go through at most, but for those behind the giving up of a package. -/
def Stage.steps : Stage → Nat
  | .bare _ => 5
  | .range _ => 4
  | .version _ _ => 3
  | .entry _ => 2
  | .declaration _ _ => 1
  | .relative found => found.length + 1
  | .ended _ => 0

/-- How many changes a stage has still to go through at most: a package is given up for one of declarations only. -/
def Stage.weight (stage : Stage) : Nat := stage.steps + if stage.isTyped then 0 else 5

/-- A sum over the calls of a stage. -/
def Stage.calls (F : Wait → Nat) : Stage → Nat
  | .version _ w => F w
  | _ => 0

/-- A sum over the calls for a file. -/
def Asset.calls (F : Wait → Nat) : Asset → Nat
  | .loading w => F w
  | .known _ => 0

namespace Session

/-- Whether a crawl needs a file that was not asked for. -/
def Crawl.unasked (names : List Location) (c : Crawl) : Nat :=
  c.wants?.elim 0 fun l => if l ∈ names then 0 else 1

/-- What is still to be done for a crawl, when some files were asked for. -/
def Crawl.labour (names : List Location) (c : Crawl) : Nat := 3 * c.stage.weight + 2 * Crawl.unasked names c

/-- What is still to be done for the crawls and the files that there are. -/
def labour (s : Session) : Nat :=
  (s.crawls.map (Crawl.labour (s.assets.map (·.1)))).sum + s.assets.countP fun e => Asset.isLoading e.2

/-- A sum over the calls of a session. -/
def calls (F : Wait → Nat) (s : Session) : Nat :=
  (s.crawls.map fun c => c.stage.calls F).sum + (s.assets.map fun e => e.2.calls F).sum

/-- What is still to be done: for the crawls and the files, then by the calls that have still to find their downloads and for
the requests in flight, then by the calls that can go on. -/
def rank (s : Session) : Nat ×ₗ Nat ×ₗ Nat :=
  toLex (s.labour, toLex (2 * s.calls Wait.early + s.cache.pending, s.calls s.cache.ready))

variable {s s' : Session} {c : Crawl} {t : Turn} {l : Location} {w w' : Wait} {i j : Nat} {log : List Log.Entry}

theorem rank_lt_iff : s'.rank < s.rank ↔ s'.labour < s.labour ∨ s'.labour = s.labour ∧
    (2 * s'.calls Wait.early + s'.cache.pending < 2 * s.calls Wait.early + s.cache.pending ∨
      2 * s'.calls Wait.early + s'.cache.pending = 2 * s.calls Wait.early + s.cache.pending ∧
        s'.calls s'.cache.ready < s.calls s.cache.ready) := by
  simp only [rank, Prod.Lex.toLex_lt_toLex]

/-! ## Turns -/

theorem Stage.steps_le_weight (stage : Stage) : stage.steps ≤ stage.weight := Nat.le_add_right _ _

/-- A stage with fewer steps that stays in the scope of the packages of declarations. -/
theorem weight_lt {stage stage' : Stage} (hsteps : stage'.steps < stage.steps)
    (htyped : stage.isTyped = true → stage'.isTyped = true) : stage'.weight < stage.weight := by
  unfold Stage.weight
  split
  · split <;> omega
  · next hno =>
    rw [if_neg fun h => hno (htyped h)]
    omega

/-- What a turn makes of what is still to be done. -/
inductive Acts.Works (s : Session) (t : Turn) : Prop
  /-- A file is asked for. -/
  | asks {l : Location} (hw : t.before.wants? = some l) (hl : l ∉ s.assets.map (·.1)) (ha : t.asked = some l)
      (hsame : t.after = t.before.stage) (hcache : s.heard t.before = s.cache)
  /-- The CDN is waited for. -/
  | calls {l : Location} {w w' : Wait} (hb : t.before.stage = .version l w) (ha : t.after = .version l w')
      (hr : (s.cache.resume .location w).2 = .waiting w') (hasked : t.asked = none)
  /-- Less is to be done. -/
  | works (h : t.after.weight < t.before.stage.weight) (hasked : t.asked = none) (hcache : s.heard t.before = s.cache)

/-- A call that has its result leaves the cache as it is. -/
theorem heard_of_done (hs : s.Sound) (h : ∀ l w, c.stage = .version l w → ∃ r, (s.cache.resume .location w).2 = .done r) :
    s.heard c = s.cache := by
  unfold heard
  split
  · next l w hstage =>
    obtain ⟨r, hr⟩ := h l w hstage
    have hadv := Cache.resume_advances (g := .location) hs.cache w
    rcases hresume : s.cache.resume .location w with ⟨cache, status⟩
    rw [hresume] at hadv hr
    dsimp only at hr
    subst hr
    cases hadv with
    | done => rfl
  · rfl

theorem steps_of_told? (h : s.told? c = some l) : 3 ≤ c.stage.steps := by
  unfold told? at h
  split at h
  · next hstage => simp [hstage, Stage.steps]
  · next hstage => simp [hstage, Stage.steps]
  · next hstage => simp [hstage, Stage.steps]
  · exact absurd h (by simp)

theorem Ranged.steps (h : s.Ranged c l) : 4 ≤ c.stage.steps ∧ ∀ l w, c.stage ≠ .version l w := by
  cases h with
  | specifier hstage => simp [hstage, Stage.steps]
  | manifest hstage => simp [hstage, Stage.steps]

/-- A crawl that is told a location has nothing to wait for. -/
theorem heard_of_told? (hs : s.Sound) (h : s.told? c = some l) : s.heard c = s.cache := by
  refine heard_of_done hs fun k w hstage => ?_
  unfold told? at h
  rw [hstage] at h
  dsimp only at h
  split at h
  · next exact hr => exact ⟨_, hr⟩
  · exact absurd h (by simp)

/-- A crawl that needs a file waits for no version. -/
theorem ne_version_of_wants? (h : c.wants? = some l) (k : Location) (w : Wait) : c.stage ≠ .version k w := fun hc => by
  unfold Crawl.wants? at h
  rw [hc] at h
  exact absurd h (by simp)

theorem weight_types (pkg : String) : (Stage.bare (typesPackage pkg)).weight = 5 := by
  simp [Stage.weight, Stage.steps, Stage.isTyped, startsWith_typesPackage]

/-- Giving up a package that is none of declarations leaves less to do, and one that is ends the crawl. -/
theorem weight_fallBackStage {stage : Stage} {pkg : String} (hpos : 0 < stage.steps)
    (htyped : stage.isTyped = startsWith typesScope pkg.toList) : (fallBackStage pkg).weight < stage.weight := by
  unfold fallBackStage
  split
  · exact Nat.lt_of_lt_of_le hpos (Stage.steps_le_weight _)
  · next hno =>
    have hweight : stage.weight = stage.steps + 5 := by
      unfold Stage.weight
      rw [if_neg (by rw [htyped]; exact hno)]
    rw [hweight, weight_types]
    omega

theorem Acts.works (h : s.Acts t) (hs : s.Sound) (hscan : s.scanBy? t.before = none) : Acts.Works s t := by
  have hstage : ∀ {c : Crawl}, (∀ l w, c.stage ≠ .version l w) → s.heard c = s.cache := fun {c} hno =>
    heard_of_done hs fun l w hc => absurd hc (hno l w)
  have htyped := h.isTyped
  cases h with
  | @ask c l hw hl =>
    refine .asks hw (fun hmem => ?_) rfl rfl (hstage (ne_version_of_wants? hw))
    obtain ⟨e, he, rfl⟩ := List.mem_map.1 hmem
    exact absurd (List.lookup_eq_none_iff.1 hl e he) (by simp)
  | wait hc hr => exact .calls hc rfl hr rfl
  | leave hc | seek hc | stumble hc | stumbleEntry hc | meetEntry hc | declareEntry hc | exhaust hc | next hc
  | meetRelative hc =>
    exact .works (weight_lt (by simp [hc, Stage.steps]) htyped) rfl (hstage (by simp [hc]))
  | inquire hl => exact .works (weight_lt (Nat.lt_of_succ_le hl.steps.1) htyped) rfl (hstage hl.steps.2)
  | enter ht | declare ht =>
    have hsteps := steps_of_told? ht
    exact .works (weight_lt (Nat.lt_of_lt_of_le (by simp [Stage.steps]) hsteps) htyped) rfl (heard_of_told? hs ht)
  | meet ht =>
    have hsteps := steps_of_told? ht
    exact .works (weight_lt (Nat.lt_of_lt_of_le (by simp [Stage.steps]) hsteps) htyped) rfl (heard_of_told? hs ht)
  | @unresolved c l w f hc hr =>
    refine .works ?_ rfl (heard_of_done hs fun k w' hc' => ?_)
    · dsimp only
      unfold unresolvedStage
      have hended : ∀ f, (Stage.ended f).weight < c.stage.weight := fun f =>
        weight_lt (by simp [hc, Stage.steps]) fun _ => rfl
      split
      · exact hended _
      · split
        · exact weight_fallBackStage (by simp [hc, Stage.steps]) (by rw [hc]; rfl)
        · exact hended _
    · obtain ⟨rfl, rfl⟩ := Stage.version.inj (hc.symm.trans hc')
      exact ⟨_, hr⟩
  | @miss c l whole hc hl =>
    refine .works ?_ rfl (hstage (by simp [hc]))
    cases whole
    · exact weight_lt (by simp [hc, Stage.steps]) fun _ => rfl
    · exact weight_fallBackStage (by simp [hc, Stage.steps]) (by rw [hc]; rfl)
  | follow hc hl => exact absurd hscan (by simp [scanBy?, hc, contentOf?_of_lookup hl, Asset.text?])
  | followRelative hc hl hh => exact absurd hscan (by simp [scanBy?, hc, contentOf?_of_lookup hl, Asset.text?, hh])

/-! ## Crawls -/

theorem unasked_le (names : List Location) (c : Crawl) : Crawl.unasked names c ≤ 1 := by
  unfold Crawl.unasked
  rcases c.wants? with _ | l
  · exact Nat.zero_le _
  · dsimp only [Option.elim_some]
    split <;> omega

theorem unasked_mono {names names' : List Location} (h : names ⊆ names') (c : Crawl) :
    Crawl.unasked names' c ≤ Crawl.unasked names c := by
  unfold Crawl.unasked
  rcases c.wants? with _ | l
  · exact Nat.le_refl _
  · dsimp only [Option.elim_some]
    split
    · exact Nat.zero_le _
    · next hno => rw [if_neg fun hmem => hno (h hmem)]

/-- A sum gets less by what one of its parts does, if no part gets more. -/
theorem sum_map_add_le {α : Type} {F G : α → Nat} {xs : List α} {x : α} {k : Nat} (h : ∀ y ∈ xs, F y ≤ G y) (hx : x ∈ xs)
    (hk : F x + k ≤ G x) : (xs.map F).sum + k ≤ (xs.map G).sum := by
  induction xs with
  | nil => exact absurd hx (by simp)
  | cons y xs ih =>
    have hrest : (xs.map F).sum ≤ (xs.map G).sum := List.sum_le_sum fun z hz => h z (List.mem_cons_of_mem y hz)
    have hy := h y List.mem_cons_self
    simp only [List.map_cons, List.sum_cons]
    rcases List.mem_cons.1 hx with rfl | hx
    · omega
    · have := ih (fun z hz => h z (List.mem_cons_of_mem y hz)) hx
      omega

theorem crawls_after (i : Nat) (log : List Log.Entry) (hspawned : t.spawned = []) :
    (s.after i t log).crawls = s.crawls.set i { t.before with stage := t.after } := by
  show _ ++ t.spawned = _
  rw [hspawned, List.append_nil]

theorem assets_after (i : Nat) (log : List Log.Entry) :
    (s.after i t log).assets = s.assets ++ t.asked.toList.map fun l => (l, Asset.loading (.turn l)) := rfl

/-- A file that is asked for is one less for the crawl that needs it. -/
theorem labour_after_of_asked (i : Nat) (log : List Log.Entry) (hspawned : t.spawned = [])
    (hb : s.crawls[i]? = some t.before) (hw : t.before.wants? = some l) (hl : l ∉ s.assets.map (·.1))
    (ha : t.asked = some l) (hsame : t.after = t.before.stage) : (s.after i t log).labour < s.labour := by
  have hself : (s.after i t log).crawls = s.crawls := by
    rw [crawls_after i log hspawned, hsame]
    exact set_eq_self hb
  unfold labour
  rw [hself, assets_after, ha]
  simp only [Option.toList_some, List.map_cons, List.map_nil, List.map_append, List.countP_append, List.countP_singleton,
    Asset.isLoading, if_true]
  have hone : Crawl.unasked (s.assets.map (·.1) ++ [l]) t.before = 0 := by simp [Crawl.unasked, hw]
  have hone' : Crawl.unasked (s.assets.map (·.1)) t.before = 1 := by
    simp only [Crawl.unasked, hw, Option.elim_some, if_neg hl]
  have hsum := sum_map_add_le (F := Crawl.labour (s.assets.map (·.1) ++ [l])) (G := Crawl.labour (s.assets.map (·.1)))
    (k := 2) (fun c _ => ?_) (List.mem_of_getElem? hb) ?_
  · omega
  · have := unasked_mono (List.subset_append_left (s.assets.map (·.1)) [l]) c
    unfold Crawl.labour
    omega
  · unfold Crawl.labour
    omega

/-- A step to a stage of less weight leaves less to do. -/
theorem labour_after_of_weight (i : Nat) (log : List Log.Entry) (hspawned : t.spawned = [])
    (hb : s.crawls[i]? = some t.before) (hasked : t.asked = none) (hless : t.after.weight < t.before.stage.weight) :
    (s.after i t log).labour < s.labour := by
  have hsum := sum_map_set (Crawl.labour (s.assets.map (·.1))) { t.before with stage := t.after } hb
  have hle := unasked_le (s.assets.map (·.1)) { t.before with stage := t.after }
  unfold labour
  rw [crawls_after i log hspawned, assets_after, hasked]
  simp only [Option.toList_none, List.map_nil, List.append_nil]
  unfold Crawl.labour at hsum ⊢
  dsimp only at hsum hle
  omega

/-- A call of the CDN is no step of a crawl. -/
theorem labour_after_of_call (i : Nat) (log : List Log.Entry) (hspawned : t.spawned = [])
    (hb : s.crawls[i]? = some t.before) (hasked : t.asked = none) (hbefore : t.before.stage = .version l w)
    (hafter : t.after = .version l w') : (s.after i t log).labour = s.labour := by
  have hsum := sum_map_set (Crawl.labour (s.assets.map (·.1))) { t.before with stage := t.after } hb
  have hsame : Crawl.labour (s.assets.map (·.1)) { t.before with stage := t.after } =
      Crawl.labour (s.assets.map (·.1)) t.before := by
    simp [Crawl.labour, Crawl.unasked, Crawl.wants?, Stage.weight, Stage.steps, Stage.isTyped, hafter, hbefore]
  dsimp only at hsum hsame
  unfold labour
  rw [crawls_after i log hspawned, assets_after, hasked]
  simp only [Option.toList_none, List.map_nil, List.append_nil]
  omega

/-- In a sum over the calls, the call of the crawl takes the place of what it was. -/
theorem calls_after (F : Wait → Nat) (i : Nat) (log : List Log.Entry) (hspawned : t.spawned = [])
    (hb : s.crawls[i]? = some t.before) (hasked : t.asked = none) (hbefore : t.before.stage = .version l w)
    (hafter : t.after = .version l w') : (s.after i t log).calls F + F w = s.calls F + F w' := by
  have hset := sum_map_set (fun c : Crawl => c.stage.calls F) { t.before with stage := t.after } hb
  dsimp only at hset
  unfold calls
  rw [crawls_after i log hspawned, assets_after, hasked]
  simp only [Option.toList_none, List.map_nil, List.append_nil]
  simp only [hbefore, hafter, Stage.calls] at hset ⊢
  omega

/-- A turn that is neither a scan nor vain leaves less to do. -/
theorem rank_after (log : List Log.Entry) (hs : s.Sound) (hacts : s.Acts t) (hb : s.crawls[i]? = some t.before)
    (hscan : s.scanBy? t.before = none) :
    (∃ l w, t.before.stage = .version l w ∧ s.cache.resume .location w = (s.cache, .waiting w)) ∨
      (s.after i t log).rank < s.rank := by
  have hspawned : t.spawned = [] := by
    rcases hacts.spawns with h | ⟨l, -, -, hl, -⟩
    · exact h.1
    · exact absurd (hscan.symm.trans hl) (by simp)
  have hcache : (s.after i t log).cache = s.heard t.before := rfl
  cases hacts.works hs hscan with
  | asks hw hl ha hsame =>
    exact Or.inr (rank_lt_iff.2 (Or.inl (labour_after_of_asked i log hspawned hb hw hl ha hsame)))
  | works hweight hasked =>
    exact Or.inr (rank_lt_iff.2 (Or.inl (labour_after_of_weight i log hspawned hb hasked hweight)))
  | @calls l w w' hstage hafter hr hasked =>
    -- only the call changes, and maybe the cache
    have hadv := Cache.resume_advances (g := .location) hs.cache w
    have hheard : s.heard t.before = (s.cache.resume .location w).1 := by rw [heard, hstage]
    have hcount := fun F => calls_after F i log hspawned hb hasked hstage hafter
    rw [rank_lt_iff, labour_after_of_call i log hspawned hb hasked hstage hafter, hcache, hheard]
    rcases hresume : s.cache.resume .location w with ⟨cache, status⟩
    rw [hresume] at hadv hr
    dsimp only at hr
    subst hr
    have hearly := hcount Wait.early
    cases hadv with
    | stays => exact Or.inl ⟨l, w, hstage, hresume⟩
    | finds hless =>
      refine Or.inr (Or.inr ⟨rfl, Or.inl ?_⟩)
      dsimp only
      omega
    | turns he hready =>
      have hcount' := hcount s.cache.ready
      refine Or.inr (Or.inr ⟨rfl, Or.inr ⟨?_, ?_⟩⟩)
      · dsimp only
        omega
      · dsimp only
        omega

/-- A crawl that waits for the CDN in vain changes nothing. -/
theorem crawl_stays (hb : s.crawls[i]? = some c) (hc : c.stage = .version l w)
    (hr : s.cache.resume .location w = (s.cache, .waiting w)) : s.crawl i = s := by
  unfold crawl
  rw [hb]
  dsimp only
  rw [hc]
  dsimp only
  unfold crawlVersion
  rw [hr]
  dsimp only
  have hself : ({ c with stage := .version l w } : Crawl) = c := by rw [← hc]
  rw [become, hself, set_eq_self hb]

/-- A crawl that goes on waits, or it leaves less to do, but for scans. -/
theorem crawl_rank (hs : s.Sound) (hb : s.crawls[i]? = some c) (hscan : s.scanBy? c = none) :
    s.crawl i = s ∧ (s.Waits c ∨ ∃ l w, c.stage = .version l w ∧ s.cache.resume .location w = (s.cache, .waiting w)) ∨
      (s.crawl i).rank < s.rank := by
  rcases s.crawl_turns i with ⟨hsame, hwaits⟩ | ⟨t, log, hacts, hb', hafter⟩
  · exact Or.inl ⟨hsame, Or.inl (hwaits c hb)⟩
  · obtain rfl := Option.some.inj (hb.symm.trans hb')
    rcases rank_after log hs hacts hb hscan with ⟨l, w, hc, hr⟩ | hless
    · exact Or.inl ⟨crawl_stays hb hc hr, Or.inr ⟨l, w, hc, hr⟩⟩
    · exact Or.inr (hafter ▸ hless)

/-! ## Files -/

/-- A file that is waited for in vain changes nothing. -/
theorem load_stays (hj : s.assets[j]? = some (l, .loading w)) (hr : s.cache.resume .file w = (s.cache, .waiting w)) :
    s.load j = s := by
  unfold load
  rw [hj]
  dsimp only
  rw [hr]
  dsimp only
  rw [set_eq_self hj]

/-- What is still to be done when only a file and the cache change. -/
theorem labour_set (hj : s.assets[j]? = some (l, .loading w)) (cache : Cache) (a : Asset) (log : List Log.Entry) :
    ({ s with cache, assets := s.assets.set j (l, a), log } : Session).labour + 1 =
      s.labour + (Asset.isLoading a).toNat := by
  have hnames : (s.assets.set j (l, a)).map (·.1) = s.assets.map (·.1) := by
    rw [List.map_set]
    exact set_eq_self (by rw [List.getElem?_map, hj]; rfl)
  have hlt := (List.getElem?_eq_some_iff.1 hj).1
  have hget : s.assets[j] = (l, .loading w) := (List.getElem?_eq_some_iff.1 hj).2
  have hpos : 0 < s.assets.countP fun e => Asset.isLoading e.2 :=
    List.countP_pos_iff.2 ⟨_, List.mem_of_getElem? hj, rfl⟩
  have hloading : Asset.isLoading (.loading w) = true := rfl
  unfold labour
  dsimp only
  rw [hnames, List.countP_set hlt, hget]
  simp only [hloading, if_true]
  cases Asset.isLoading a
  · simp only [Bool.toNat_false, Bool.false_eq_true, if_false]
    omega
  · simp only [Bool.toNat_true, if_true]
    omega

theorem calls_set (hj : s.assets[j]? = some (l, .loading w)) (cache : Cache) (a : Asset) (log : List Log.Entry)
    (F : Wait → Nat) : ({ s with cache, assets := s.assets.set j (l, a), log } : Session).calls F + F w =
      s.calls F + a.calls F := by
  have hset := sum_map_set (fun e : Location × Asset => e.2.calls F) (l, a) hj
  unfold calls
  simp only [Asset.calls] at hset ⊢
  omega

/-- A file whose fetching goes on is waited for, or less is left to do. -/
theorem load_rank (hs : s.Sound) (hj : s.assets[j]? = some (l, .loading w)) :
    s.load j = s ∧ s.cache.resume .file w = (s.cache, .waiting w) ∨ (s.load j).rank < s.rank := by
  obtain ⟨log, hload⟩ := load_eq hj
  have hadv := Cache.resume_advances (g := .file) hs.cache w
  rcases hresume : s.cache.resume .file w with ⟨cache, status⟩
  rw [hresume] at hadv hload
  rw [hload]
  have hlabour := fun a => labour_set hj cache a log
  have hcalls := fun F a => calls_set hj cache a log F
  cases hadv with
  | stays => exact Or.inl ⟨hload ▸ load_stays hj hresume, rfl⟩
  | done x =>
    have hless : _ + 1 = _ + 0 := hlabour (.known (x.toOption.map (·.content)))
    refine Or.inr (rank_lt_iff.2 (Or.inl ?_))
    show Session.labour { s with assets := s.assets.set j (l, .known (x.toOption.map (·.content))), log } < s.labour
    omega
  | @finds c' w' hfound =>
    have hsame : _ + 1 = _ + 1 := hlabour (.loading w')
    have hearly : _ + Wait.early w = _ + Wait.early w' := hcalls Wait.early (.loading w')
    refine Or.inr (rank_lt_iff.2 (Or.inr ⟨Nat.succ_injective hsame, Or.inl ?_⟩))
    show 2 * Session.calls Wait.early { s with cache, assets := s.assets.set j (l, .loading w'), log } + cache.pending <
      2 * s.calls Wait.early + s.cache.pending
    omega
  | @turns w' he hready =>
    have hsame : _ + 1 = _ + 1 := hlabour (.loading w')
    have hearly : _ + Wait.early w = _ + Wait.early w' := hcalls Wait.early (.loading w')
    have hcount : _ + s.cache.ready w = _ + s.cache.ready w' := hcalls s.cache.ready (.loading w')
    refine Or.inr (rank_lt_iff.2 (Or.inr ⟨Nat.succ_injective hsame, Or.inr ⟨?_, ?_⟩⟩))
    · show 2 * Session.calls Wait.early { s with assets := s.assets.set j (l, .loading w'), log } + s.cache.pending =
        2 * s.calls Wait.early + s.cache.pending
      omega
    · show Session.calls s.cache.ready { s with assets := s.assets.set j (l, .loading w'), log } < s.calls s.cache.ready
      omega

/-! ## Events -/

/-- An answer leaves less to do if it is that to a request in flight. -/
theorem answer_rank (s : Session) (n : Nat) (a : Answer) : s.take (.move (.answer n a)) = s ∧
    (∀ url, (n, url) ∉ s.cache.inFlight) ∨ (s.take (.move (.answer n a))).rank < s.rank := by
  by_cases hflight : ∃ url, (n, url) ∈ s.cache.inFlight
  · obtain ⟨url, hurl⟩ := hflight
    exact Or.inr (rank_lt_iff.2 (Or.inr ⟨rfl, Or.inl (Nat.add_lt_add_left (Cache.pending_complete hurl a) _)⟩))
  · refine Or.inl ⟨?_, fun url hurl => hflight ⟨url, hurl⟩⟩
    show { s with cache := s.cache.complete n a } = s
    rw [Cache.complete_eq_self fun d hd ho => hflight ⟨s.cache.urlOf d, Cache.mem_inFlight.2 ⟨d, hd, ho, rfl⟩⟩]

/-- An event that adds no crawls changes nothing or leaves less to do. -/
theorem take_rank (hs : s.Sound) {e : Event} (hrefer : ∀ references manifest, e ≠ .refer references manifest)
    (hscan : s.scan? e = none) : s.take e = s ∨ (s.take e).rank < s.rank := by
  rcases e with ⟨references, manifest⟩ | m
  · exact absurd rfl (hrefer references manifest)
  · cases m with
    | answer n a => exact (answer_rank s n a).imp_left And.left
    | crawl i =>
      show s.crawl i = s ∨ (s.crawl i).rank < s.rank
      rcases hb : s.crawls[i]? with _ | c
      · left
        unfold crawl
        rw [hb]
      · have hnone : s.scanBy? c = none := by
          have hbind : s.crawls[i]?.bind s.scanBy? = none := hscan
          rwa [hb] at hbind
        exact (crawl_rank hs hb hnone).imp_left And.left
    | load j =>
      show s.load j = s ∨ (s.load j).rank < s.rank
      by_cases hj : ∃ l w, s.assets[j]? = some (l, .loading w)
      · obtain ⟨l, w, hj⟩ := hj
        exact (load_rank hs hj).imp_left And.left
      · left
        unfold load
        split
        · next l w h => exact absurd ⟨l, w, h⟩ hj
        · rfl

/-- A session in which nothing can go on has nothing left to do. -/
theorem stuck_over (hs : s.Sound) (hcrawl : ∀ i < s.crawls.length, s.crawl i = s ∧ s.scan? (.move (.crawl i)) = none)
    (hload : ∀ j < s.assets.length, s.load j = s) (hflight : s.cache.inFlight = []) : s.isOver = true := by
  -- a file that is being fetched would wait for a request in flight
  have hknown : ∀ l w, (l, .loading w) ∉ s.assets := fun l w hmem => by
    obtain ⟨j, hj⟩ := List.mem_iff_getElem?.1 hmem
    rcases load_rank hs hj with ⟨-, hr⟩ | hless
    · exact Cache.inFlight_of_stays hs.cache (hs.loading l w hmem) hr hflight
    · rw [hload j (List.getElem?_eq_some_iff.1 hj).1] at hless
      exact absurd hless (lt_irrefl _)
  have hended : ∀ c ∈ s.crawls, Crawl.isOver c = true := fun c hc => by
    obtain ⟨i, hi⟩ := List.mem_iff_getElem?.1 hc
    obtain ⟨hsame, hscan⟩ := hcrawl i (List.getElem?_eq_some_iff.1 hi).1
    have hnone : s.scanBy? c = none := by
      have hbind : s.crawls[i]?.bind s.scanBy? = none := hscan
      rwa [hi] at hbind
    rcases crawl_rank hs hi hnone with ⟨-, (⟨f, hstage⟩ | ⟨l, w, -, hl⟩) | ⟨l, w, hstage, hr⟩⟩ | hless
    · rw [Crawl.isOver, hstage]
    · exact absurd (Table.mem_of_lookup hl) (hknown l w)
    · have hstands := hs.crawls c hc
      rw [hstage] at hstands
      exact absurd hflight (Cache.inFlight_of_stays (g := .location) hs.cache hstands.2 hr)
    · rw [hsame] at hless
      exact absurd hless (lt_irrefl _)
  unfold isOver
  rw [List.all_eq_true.2 hended, Bool.true_and, Bool.not_eq_true', List.any_eq_false]
  rintro ⟨l, a⟩ hmem
  cases a with
  | loading w => exact absurd hmem (hknown l w)
  | known content => exact Bool.false_ne_true

/-- A session with nothing left to do has nothing left to do behind a move. -/
theorem isOver_take (h : s.isOver = true) {e : Event} (hrefer : ∀ references manifest, e ≠ .refer references manifest) :
    (s.take e).isOver = true := by
  have hparts := h
  unfold isOver at hparts
  rw [Bool.and_eq_true, List.all_eq_true, Bool.not_eq_true', List.any_eq_false] at hparts
  rcases e with ⟨references, manifest⟩ | m
  · exact absurd rfl (hrefer references manifest)
  · cases m with
    | answer n a => exact h
    | crawl i =>
      have hsame : s.crawl i = s := by
        unfold crawl
        split
        · rfl
        · next c hb =>
          have hover := hparts.1 c (List.mem_of_getElem? hb)
          unfold Crawl.isOver at hover
          split at hover
          · next hstage => rw [hstage]
          · exact absurd hover (by simp)
      exact (congrArg isOver hsame).trans h
    | load j =>
      have hsame : s.load j = s := by
        unfold load
        split
        · next l w hj => exact absurd rfl (hparts.2 _ (List.mem_of_getElem? hj))
        · rfl
      exact (congrArg isOver hsame).trans h

end Session

end BareImports.Typings
