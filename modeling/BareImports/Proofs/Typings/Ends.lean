import BareImports.Proofs.Cdn.Finite
import BareImports.Proofs.Typings.Progress
import Mathlib.Data.Nat.Pairing
import Mathlib.Data.Set.Finite.Lattice

/-!
# The crawling comes to its end

* `through s schedule n` : what the first events of a schedule do;
* `Fair s schedule` : references are added finitely often, crawls and files go on again and again, and requests are answered;
* `Serves urls s schedule` : all URLs that are answered with status 200 are among some;
* `finite_scanned` : then the references of finitely many files are followed, all in all;
* `crawling_ends` : each thing is done once at most, and the crawling ends; `everyEvent`, a schedule for any session.
-/

namespace BareImports.Typings

open Text Cdn Location

namespace Session

variable {s s' : Session} {e : Event} {l : Location} {schedule : Nat → Event} {urls : List String} {content : String}

/-! ## Files that are there -/

/-- What an event keeps in the cache. -/
theorem Does.extends (hd : s.Does e s') (hs : s.Sound) : s.cache.Extends s'.cache := by
  cases hd with
  | turn ht =>
    obtain ⟨t, log, -, hb, rfl⟩ := ht
    exact (hs.heard (List.mem_of_getElem? hb)).2
  | load log hj => exact (Cache.resume_goes (g := .file) hs.cache (hs.loading _ _ (List.mem_of_getElem? hj))).extends
  | answer n a => exact .complete
  | _ => exact .refl _

/-- What succeeds at an event is a request in flight that is answered with status 200. -/
theorem Does.won (hd : s.Does e s') (hs : s.Sound) {d : Download} (h : d ∈ s'.cache.won) : d ∈ s.cache.won ∨
    ∃ n r, e = .move (.answer n (.ok r)) ∧ (n, s.cache.urlOf d) ∈ s.cache.inFlight ∧ r.status = 200 := by
  cases hd with
  | @turn i _ ht =>
    obtain ⟨t, log, -, hb, rfl⟩ := ht
    left
    have hmem : d ∈ (s.heard t.before).won := h
    unfold heard at hmem
    split at hmem
    · next l w hstage =>
      have hstands := hs.crawls _ (List.mem_of_getElem? hb)
      rw [hstage] at hstands
      rwa [(Cache.resume_goes (g := .location) hs.cache hstands.2).won] at hmem
    · exact hmem
  | @load j l w log hj =>
    left
    have hgoes := Cache.resume_goes (g := .file) hs.cache (hs.loading l w (List.mem_of_getElem? hj))
    rwa [hgoes.won] at h
  | answer n a =>
    refine (Cache.won_complete h).imp_right ?_
    rintro ⟨hflight, r, rfl, h200⟩
    exact ⟨n, r, rfl, hflight, h200⟩
  | _ => exact Or.inl h

/-- The files that are there were served. -/
def Fetched (s : Session) : Prop :=
  ∀ l content, (l, .known (some content)) ∈ s.assets → ∃ f, s.cache.Answers l .file (.ok f)

theorem Does.fetched (hd : s.Does e s') (hs : s.Sound) (h : s.Fetched) : s'.Fetched := by
  have hgrows := hd.extends hs
  have hkeep : ∀ l content, (l, .known (some content)) ∈ s.assets → ∃ f, s'.cache.Answers l .file (.ok f) := fun l content hl =>
    (h l content hl).imp fun f hf => Cache.Stands.mono (s := .done (.ok f)) hf hgrows
  cases hd with
  | turn ht =>
    obtain ⟨t, log, -, -, rfl⟩ := ht
    intro l content hl
    rcases mem_assets_after hl with hl | ⟨k, -, heq⟩
    · exact hkeep l content hl
    · exact absurd heq (by simp)
  | @load j k w log hj =>
    intro l content hl
    rcases List.mem_or_eq_of_mem_set hl with hl | heq
    · exact hkeep l content hl
    · obtain ⟨rfl, hload⟩ := Prod.mk.inj heq
      have hstands := (Cache.resume_goes (g := .file) hs.cache (hs.loading l w (List.mem_of_getElem? hj))).stands
      rcases hr : (s.cache.resume .file w).2 with (f | file) | w'
      · rw [hr] at hload
        exact absurd hload (by simp [Asset.ofStatus, Except.toOption])
      · rw [hr] at hstands
        exact ⟨file, hstands⟩
      · rw [hr] at hload
        exact absurd hload (by simp [Asset.ofStatus])
  | _ => exact hkeep

theorem fetched_play (map : ImportMap) (url : String) (events : List Event) : ((fresh map url).play events).Fetched := by
  induction events using List.reverseRecOn with
  | nil => exact fun l content hl => absurd hl (by simp [fresh, play])
  | append_singleton events e ih =>
    rw [play_concat]
    exact (take_cases _ e).fetched (sound_play map url events) ih

/-- A file whose references an event follows is there. -/
theorem mem_of_scan? (h : s.scan? e = some l) : ∃ content, (l, .known (some content)) ∈ s.assets := by
  have hthere : ∀ {l : Location}, (contentOf? s l).isSome = true → ∃ content, (l, .known (some content)) ∈ s.assets :=
    fun {l} hl => (Option.isSome_iff_exists.1 hl).imp fun content hc => Table.mem_of_lookup (lookup_of_contentOf? hc)
  unfold scan? at h
  split at h
  · obtain ⟨c, -, hc⟩ := Option.bind_eq_some_iff.1 h
    unfold scanBy? at hc
    split at hc
    · split at hc
      · next hl => exact Option.some.inj hc ▸ hthere hl
      · exact absurd hc (by simp)
    · split at hc
      · next hl => exact Option.some.inj hc ▸ hthere (Bool.and_eq_true_iff.1 hl).1
      · exact absurd hc (by simp)
    · exact absurd hc (by simp)
  · exact absurd h (by simp)

/-! ## Schedules -/

/-- What the first events of a schedule do. -/
def through (s : Session) (schedule : Nat → Event) (n : Nat) : Session := s.play ((List.range n).map schedule)

theorem through_succ (s : Session) (schedule : Nat → Event) (n : Nat) :
    s.through schedule (n + 1) = (s.through schedule n).take (schedule n) := by
  unfold through
  rw [List.range_succ, List.map_append, List.map_cons, List.map_nil, play_concat]

/-- References are added finitely often, each crawl and each file goes on again and again, and each request in flight is
answered some time. -/
structure Fair (s : Session) (schedule : Nat → Event) : Prop where
  /-- References are added finitely often. -/
  refers : ∃ N, ∀ n, N ≤ n → ∀ references manifest, schedule n ≠ .refer references manifest
  /-- Crawls go on. -/
  crawl : ∀ n i, i < (s.through schedule n).crawls.length → ∃ m, n ≤ m ∧ schedule m = .move (.crawl i)
  /-- Files go on. -/
  load : ∀ n j, j < (s.through schedule n).assets.length → ∃ m, n ≤ m ∧ schedule m = .move (.load j)
  /-- Requests are answered. -/
  answer : ∀ n k url, (k, url) ∈ (s.through schedule n).cache.inFlight → ∃ m a, n ≤ m ∧ schedule m = .move (.answer k a)

/-- All URLs that are answered with status 200 are among some. -/
def Serves (urls : List String) (s : Session) (schedule : Nat → Event) : Prop :=
  ∀ n k url r, schedule n = .move (.answer k (.ok r)) → (k, url) ∈ (s.through schedule n).cache.inFlight → r.status = 200 →
    url ∈ urls

section Schedule

variable {map : ImportMap} {url : String}

theorem sound_through (map : ImportMap) (url : String) (schedule : Nat → Event) (n : Nat) :
    ((fresh map url).through schedule n).Sound := sound_play map url _

theorem extends_through (map : ImportMap) (url : String) (schedule : Nat → Event) {n m : Nat} (h : n ≤ m) :
    ((fresh map url).through schedule n).cache.Extends ((fresh map url).through schedule m).cache := by
  obtain ⟨d, rfl⟩ := Nat.exists_eq_add_of_le h
  induction d with
  | zero => exact .refl _
  | succ d ih =>
    rw [← Nat.add_assoc, through_succ]
    exact (ih (Nat.le_add_right n d)).trans ((take_cases _ _).extends (sound_through map url schedule (n + d)))

/-- What has succeeded was answered with status 200. -/
theorem Serves.won (h : Serves urls (fresh map url) schedule) (n : Nat) :
    ∀ d ∈ ((fresh map url).through schedule n).cache.won, ((fresh map url).through schedule n).cache.urlOf d ∈ urls := by
  induction n with
  | zero => exact fun d hd => absurd hd.1 (by simp [through, play, fresh, Cache.empty])
  | succ n ih =>
    intro d hd
    have hbase := (extends_through map url schedule (Nat.le_succ n)).base
    rw [through_succ] at hd
    rw [Cache.urlOf, hbase]
    rcases (take_cases _ (schedule n)).won (sound_through map url schedule n) hd with hd | ⟨k, r, he, hflight, h200⟩
    · exact ih d hd
    · exact h n k _ r he hflight h200

/-- If finitely many URLs are answered with status 200, then the references of finitely many files are followed, all in all. -/
theorem Serves.finite_scanned (h : Serves urls (fresh map url) schedule) :
    {l | ∃ n, ((fresh map url).through schedule n).scan? (schedule n) = some l}.Finite := by
  have hwon : (⋃ n, ((fresh map url).through schedule n).cache.won).Finite := Cache.finite_won
    (fun n => (sound_through map url schedule n).cache) (fun n m hnm => extends_through map url schedule hnm) h.won
  have hwritten := finite_written (withFinalSlash url) hwon
  -- the package, the version and the path of such a file are written in what has succeeded
  refine Set.Finite.subset ((hwritten.prod (hwritten.prod hwritten)).image fun x => Location.mk x.1 x.2.1 x.2.2) ?_
  rintro l ⟨n, hn⟩
  obtain ⟨content, hl⟩ := mem_of_scan? hn
  obtain ⟨f, hf⟩ := fetched_play map url ((List.range n).map schedule) l content hl
  have hparts := hf.written (sound_through map url schedule n).cache
  have hbase : ((fresh map url).through schedule n).cache.base = withFinalSlash url :=
    (extends_through map url schedule (Nat.zero_le n)).base
  have hall : ∀ x, Written ((fresh map url).through schedule n).cache.base ((fresh map url).through schedule n).cache.won x →
      x ∈ {x | Written (withFinalSlash url) (⋃ n, ((fresh map url).through schedule n).cache.won) x} := fun x hx => by
    rw [hbase] at hx
    exact hx.mono (Set.subset_iUnion (fun n => ((fresh map url).through schedule n).cache.won) n)
  exact ⟨(l.pkg, l.version, l.path), ⟨hall _ hparts.1, hall _ hparts.2.1, hall _ hparts.2.2⟩, rfl⟩

/-- The files whose references are followed up to a moment. -/
def scannedThrough (s : Session) (schedule : Nat → Event) (n : Nat) : List Location := s.scanned ((List.range n).map schedule)

theorem scannedThrough_succ (s : Session) (schedule : Nat → Event) (n : Nat) :
    s.scannedThrough schedule (n + 1) =
      s.scannedThrough schedule n ++ ((s.through schedule n).scan? (schedule n)).toList := by
  unfold scannedThrough
  rw [List.range_succ, List.map_append, List.map_cons, List.map_nil, scanned_concat]
  rfl

/-- Some time the references of no further file are followed. -/
theorem Serves.exists_scanned (h : Serves urls (fresh map url) schedule) :
    ∃ N, ∀ n, N ≤ n → ((fresh map url).through schedule n).scan? (schedule n) = none := by
  let count (n : Nat) : Nat := ((fresh map url).scannedThrough schedule n).length
  have hmem : ∀ n, ∀ l ∈ (fresh map url).scannedThrough schedule n,
      l ∈ {l | ∃ n, ((fresh map url).through schedule n).scan? (schedule n) = some l} := by
    intro n
    induction n with
    | zero => exact fun l hl => absurd hl (by simp [scannedThrough, scanned])
    | succ n ih =>
      intro l hl
      rw [scannedThrough_succ] at hl
      rcases List.mem_append.1 hl with hl | hl
      · exact ih l hl
      · exact ⟨n, Option.mem_toList.1 hl⟩
  have hfinite := h.finite_scanned
  have hbound : ∀ n, count n ≤ hfinite.toFinset.card := fun n => by
    show ((fresh map url).scanned ((List.range n).map schedule)).length ≤ _
    rw [← List.toFinset_card_of_nodup (nodup_scanned map url ((List.range n).map schedule))]
    exact Finset.card_le_card fun l hl => hfinite.mem_toFinset.2 (hmem n l (List.mem_toFinset.1 hl))
  have hmono : Monotone count := monotone_nat_of_le_succ fun n => by
    show ((fresh map url).scannedThrough schedule n).length ≤ ((fresh map url).scannedThrough schedule (n + 1)).length
    rw [scannedThrough_succ, List.length_append]
    exact Nat.le_add_right _ _
  obtain ⟨top, ⟨N, rfl⟩, htop⟩ := Set.exists_max_image (Set.range count) id
    ((Set.finite_Iic hfinite.toFinset.card).subset (by rintro _ ⟨n, rfl⟩; exact hbound n)) ⟨count 0, 0, rfl⟩
  refine ⟨N, fun n hn => ?_⟩
  have hle : count (n + 1) ≤ count N := htop _ ⟨n + 1, rfl⟩
  have hge : count N ≤ count n := hmono hn
  have hsucc : count (n + 1) = count n + (((fresh map url).through schedule n).scan? (schedule n)).toList.length := by
    show ((fresh map url).scannedThrough schedule (n + 1)).length = _
    rw [scannedThrough_succ, List.length_append]
  rcases hscan : ((fresh map url).through schedule n).scan? (schedule n) with _ | l
  · rfl
  · rw [hscan, Option.toList_some, List.length_singleton] at hsucc
    omega

/-- Behind the last reference and the last scan, nothing changes or less is left to do from one moment to a later one. -/
theorem through_rank {N : Nat} (hrefer : ∀ n, N ≤ n → ∀ references manifest, schedule n ≠ .refer references manifest)
    (hscan : ∀ n, N ≤ n → ((fresh map url).through schedule n).scan? (schedule n) = none) {n : Nat} (hn : N ≤ n) (d : Nat) :
    (fresh map url).through schedule (n + d) = (fresh map url).through schedule n ∨
      ((fresh map url).through schedule (n + d)).rank < ((fresh map url).through schedule n).rank := by
  induction d with
  | zero => exact Or.inl rfl
  | succ d ih =>
    have hle : N ≤ n + d := Nat.le_add_right_of_le hn
    rw [← Nat.add_assoc, through_succ]
    rcases take_rank (sound_through map url schedule (n + d)) (hrefer _ hle) (hscan _ hle) with hsame | hless
    · rw [hsame]
      exact ih
    · exact Or.inr (ih.elim (fun h => h ▸ hless) hless.trans)

/-- Where something is left to do behind the last reference and the last scan, less is left to do some time. -/
theorem Fair.later (hfair : Fair (fresh map url) schedule) {N : Nat}
    (hrefer : ∀ n, N ≤ n → ∀ references manifest, schedule n ≠ .refer references manifest)
    (hscan : ∀ n, N ≤ n → ((fresh map url).through schedule n).scan? (schedule n) = none) {n : Nat} (hn : N ≤ n)
    (hover : ((fresh map url).through schedule n).isOver ≠ true) :
    ∃ m, n ≤ m ∧ ((fresh map url).through schedule m).rank < ((fresh map url).through schedule n).rank := by
  by_contra hnot
  -- then nothing ever changes behind it
  have hsame : ∀ m, n ≤ m → (fresh map url).through schedule m = (fresh map url).through schedule n := fun m hm => by
    obtain ⟨d, rfl⟩ := Nat.exists_eq_add_of_le hm
    exact (through_rank hrefer hscan hn d).resolve_right fun h => hnot ⟨_, hm, h⟩
  have htake : ∀ m e, n ≤ m → schedule m = e → ((fresh map url).through schedule n).take e = (fresh map url).through schedule n ∧
      ((fresh map url).through schedule n).scan? e = none := by
    rintro m _ hm rfl
    have hnext := through_succ (fresh map url) schedule m
    have hquiet := hscan m (hn.trans hm)
    rw [hsame m hm] at hnext hquiet
    exact ⟨hnext.symm.trans (hsame (m + 1) (Nat.le_succ_of_le hm)), hquiet⟩
  refine hover (stuck_over (sound_through map url schedule n) (fun i hi => ?_) (fun j hj => ?_) ?_)
  · obtain ⟨m, hm, he⟩ := hfair.crawl n i hi
    exact htake m _ hm he
  · obtain ⟨m, hm, he⟩ := hfair.load n j hj
    exact (htake m _ hm he).1
  · rw [List.eq_nil_iff_forall_not_mem]
    rintro ⟨k, u⟩ hk
    obtain ⟨m, a, hm, he⟩ := hfair.answer n k u hk
    rcases answer_rank ((fresh map url).through schedule n) k a with ⟨-, hnone⟩ | hless
    · exact hnone u hk
    · rw [(htake m _ hm he).1] at hless
      exact absurd hless (lt_irrefl _)

/-- The crawling ends, and it stays so. -/
theorem Fair.ends (hfair : Fair (fresh map url) schedule) (hserves : Serves urls (fresh map url) schedule) :
    ∃ n, ∀ m, n ≤ m → ((fresh map url).through schedule m).isOver = true := by
  obtain ⟨N, hN⟩ := hfair.refers
  obtain ⟨N', hN'⟩ := hserves.exists_scanned
  have hrefer : ∀ n, max N N' ≤ n → ∀ references manifest, schedule n ≠ .refer references manifest := fun n hn =>
    hN n (le_of_max_le_left hn)
  have hscan : ∀ n, max N N' ≤ n → ((fresh map url).through schedule n).scan? (schedule n) = none := fun n hn =>
    hN' n (le_of_max_le_right hn)
  have hfrom : ∀ r n, max N N' ≤ n → ((fresh map url).through schedule n).rank = r →
      ∃ m, max N N' ≤ m ∧ ((fresh map url).through schedule m).isOver = true := by
    intro r
    induction r using WellFoundedLT.induction with
    | ind r ih =>
      rintro n hn rfl
      by_cases hover : ((fresh map url).through schedule n).isOver = true
      · exact ⟨n, hn, hover⟩
      · obtain ⟨m, hm, hless⟩ := hfair.later hrefer hscan hn hover
        exact ih _ hless m (hn.trans hm) rfl
  obtain ⟨n, hn, hover⟩ := hfrom _ _ (Nat.le_refl _) rfl
  refine ⟨n, fun m hm => ?_⟩
  induction m, hm using Nat.le_induction with
  | base => exact hover
  | succ m hm ih =>
    rw [through_succ]
    exact isOver_take ih (hrefer m (hn.trans hm))

end Schedule

/-! ## A schedule for any session -/

/-- The moves by their numbers; a request is answered by a failure. -/
def eventOf (code : Nat) : Event :=
  match code % 3 with
  | 0 => .move (.crawl (code / 3))
  | 1 => .move (.load (code / 3))
  | _ => .move (.answer (code / 3) (.error (.unexpected "closed")))

/-- Some events come first, and then every move comes again and again. -/
def everyEvent (first : List Event) (n : Nat) : Event := first[n]?.getD (eventOf n.unpair.1)

theorem everyEvent_of_le {first : List Event} {n : Nat} (h : first.length ≤ n) : everyEvent first n = eventOf n.unpair.1 := by
  rw [everyEvent, List.getElem?_eq_none h, Option.getD_none]

theorem exists_everyEvent (first : List Event) (n code : Nat) : ∃ m, n ≤ m ∧ everyEvent first m = eventOf code := by
  have hle := Nat.right_le_pair code (max n first.length)
  refine ⟨Nat.pair code (max n first.length), (Nat.le_max_left _ _).trans hle, ?_⟩
  rw [everyEvent_of_le ((Nat.le_max_right _ _).trans hle), Nat.unpair_pair]

theorem eventOf_crawl (i : Nat) : eventOf (3 * i) = .move (.crawl i) := by
  rw [eventOf, Nat.mul_mod_right, Nat.mul_div_cancel_left i (by omega)]
  rfl

theorem eventOf_load (j : Nat) : eventOf (3 * j + 1) = .move (.load j) := by
  rw [eventOf, show (3 * j + 1) % 3 = 1 by omega, show (3 * j + 1) / 3 = j by omega]
  rfl

theorem eventOf_answer (k : Nat) : eventOf (3 * k + 2) = .move (.answer k (.error (.unexpected "closed"))) := by
  rw [eventOf, show (3 * k + 2) % 3 = 2 by omega, show (3 * k + 2) / 3 = k by omega]
  rfl

theorem eventOf_cases (code : Nat) : (∃ i, eventOf code = .move (.crawl i)) ∨ (∃ j, eventOf code = .move (.load j)) ∨
    ∃ k, eventOf code = .move (.answer k (.error (.unexpected "closed"))) := by
  unfold eventOf
  split
  · exact Or.inl ⟨_, rfl⟩
  · exact Or.inr (Or.inl ⟨_, rfl⟩)
  · exact Or.inr (Or.inr ⟨_, rfl⟩)

theorem fair_everyEvent (s : Session) (first : List Event) : Fair s (everyEvent first) where
  refers := by
    refine ⟨first.length, fun n hn references manifest he => ?_⟩
    rw [everyEvent_of_le hn] at he
    rcases eventOf_cases n.unpair.1 with ⟨_, h⟩ | ⟨_, h⟩ | ⟨_, h⟩ <;> exact absurd (h.symm.trans he) (by simp)
  crawl n i _ := eventOf_crawl i ▸ exists_everyEvent first n (3 * i)
  load n j _ := eventOf_load j ▸ exists_everyEvent first n (3 * j + 1)
  answer n k _ _ := (exists_everyEvent first n (3 * k + 2)).imp fun _ h => ⟨_, h.1, h.2.trans (eventOf_answer k)⟩

/-- All URLs that are answered with status 200 are those of the first events. -/
theorem serves_everyEvent {first : List Event} (h : ∀ n k u r, first[n]? = some (.move (.answer k (.ok r))) →
    (k, u) ∈ (s.through (everyEvent first) n).cache.inFlight → u ∈ urls) : Serves urls s (everyEvent first) := by
  intro n k u r he hflight _
  rcases hn : first[n]? with _ | e
  · rw [everyEvent_of_le (List.getElem?_eq_none_iff.1 hn)] at he
    rcases eventOf_cases n.unpair.1 with ⟨_, h⟩ | ⟨_, h⟩ | ⟨_, h⟩ <;> exact absurd (h.symm.trans he) (by simp)
  · rw [everyEvent, hn, Option.getD_some] at he
    exact h n k u r (hn.trans (congrArg some he)) hflight

/-- A package is added, its manifest is asked for, and it is there. -/
def asked : List Event :=
  [.refer [.bare "a"] none, .move (.crawl 0), .move (.crawl 0), .move (.crawl 0),
    .move (.answer 0 (.ok ⟨200, "https://c/a@1.0.0/package.json", "\x7b\x7d", none⟩))]

/-! ## The main result -/

/-- For every import map, every CDN and every order of events: the fetching of each file is begun once at most, the
references of each file are followed once at most, and crawls are added for those and for the project only; each crawl gives
up one package at most for the one of its declarations, and what is tried instead of a package is given up by no crawl. The
crawling ends if finitely many URLs are answered with status 200 and each request is answered. -/
theorem crawling_ends (map : ImportMap) (url : String) :
    (∀ events, ((fresh map url).downloads events).Nodup ∧ ((fresh map url).scanned events).Nodup ∧
      ∀ m, ((fresh map url).play events).scan? (.move m) = none →
        (((fresh map url).play events).take (.move m)).crawls.length = ((fresh map url).play events).crawls.length) ∧
    (∀ events, (((fresh map url).fallen events).map (·.crawl)).Nodup ∧
      ∀ f ∈ (fresh map url).fallen events, f.other = typesPackage f.pkg ∧ ∀ l, Location.parse? f.other.toList = some l →
        ∀ g ∈ (fresh map url).fallen events, g.pkg ≠ l.pkg) ∧
    ∀ schedule urls, Fair (fresh map url) schedule → Serves urls (fresh map url) schedule →
      ∃ n, ∀ m, n ≤ m → ((fresh map url).through schedule m).isOver = true :=
  ⟨fun events => ⟨nodup_downloads map url events, nodup_scanned map url events, fun _ => crawls_of_scan?⟩, fallen_once map url,
    fun _ _ hfair hserves => hfair.ends hserves⟩

/-- A crawling of a package whose manifest is there. -/
theorem crawling_ends_asked : Fair (fresh {} "https://c") (everyEvent asked) ∧
    Serves ["https://c/a@latest/package.json"] (fresh {} "https://c") (everyEvent asked) ∧
    ((fresh {} "https://c").through (everyEvent asked) 5).isOver = false ∧
    ∃ n, ∀ m, n ≤ m → ((fresh {} "https://c").through (everyEvent asked) m).isOver = true := by
  have hfair := fair_everyEvent (fresh {} "https://c") asked
  have hserves : Serves ["https://c/a@latest/package.json"] (fresh {} "https://c") (everyEvent asked) := by
    refine serves_everyEvent fun n k u r hn hflight => ?_
    obtain rfl : n = 4 := by
      rcases n with _ | _ | _ | _ | _ | n
      · exact absurd hn (by simp [asked])
      · exact absurd hn (by simp [asked])
      · exact absurd hn (by simp [asked])
      · exact absurd hn (by simp [asked])
      · rfl
      · exact absurd hn (by simp [asked])
    have hall : ((fresh {} "https://c").through (everyEvent asked) 4).cache.inFlight =
        [(0, "https://c/a@latest/package.json")] := by decide +kernel
    rw [hall, List.mem_singleton] at hflight
    exact List.mem_singleton.2 (Prod.mk.inj hflight).2
  exact ⟨hfair, hserves, by decide +kernel, (crawling_ends {} "https://c").2.2 _ _ hfair hserves⟩

end Session

end BareImports.Typings
