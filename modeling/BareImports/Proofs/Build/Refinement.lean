import BareImports.Proofs.Build.Account
import BareImports.Proofs.Build.Links

/-!
# A build gives what its reference gives

* `Turns.split` : the producers behind a turn, up to their order;
* `Producer.Heads`, `Acts.heads` : the manifest of the project is the first one among the outputs still to come;
* `Owes S map items r given begun` : what was given, waits to be taken and is owed by the producers is what the reference has
  for the dependencies that were begun, and those are all but the ones that the producers want;
* `Turns.owes`, `owes_play` : it holds of a build on a consistent site after any moves in any order;
* `process_reference` : the stream comes to its end, and holds what the reference holds.
-/

namespace BareImports.Build

open Text Cdn Location

/-- The manifest of the project is the first one among the outputs that are still to come. -/
def Producer.Heads (project : Option Value) : Producer → Prop
  | .source items _ => Site.projectManifest items = project
  | _ => True

namespace Run

open Site

variable {S : Site} {map : ImportMap} {project : Option Value} {items : List Output} {r r' : Run} {i : Nat} {t : Turn}
  {given : List Output} {begun : List Location} {ms : List Move}

/-! ## One turn -/

/-- The producers behind a turn are those before it, but for the one that has it and the one that it adds. -/
theorem Turns.split (h : r.Turns i t r') : ∃ others, r.producers.Perm (t.before :: others) ∧
    r'.producers.Perm (t.after :: (others ++ t.child.toList)) := by
  have hget : r.producers.get ⟨i, h.lt⟩ = t.before := (List.getElem?_eq_some_iff.1 h.before).2
  refine ⟨r.producers.eraseIdx i, ?_, ?_⟩
  · rw [← hget]
    exact (List.getElem_cons_eraseIdx_perm h.lt).symm
  · rw [h.producers]
    exact (List.set_perm_cons_eraseIdx h.lt t.after).append_right _

/-- What is known of the manifest of the project behind a turn. -/
theorem Acts.heads (h : r.Acts t) (hr : r.Ready S map project) (hb : S.Fits map project r.cache t.before)
    (hh : r.project = none → t.before.Heads project) : (∀ m, t.project = some m → m = project) ∧
      (t.project = none → t.after.Heads project ∧ ∀ p ∈ t.child, p.Heads project) := by
  have hproject := hr.project
  cases h with
  | finish =>
    refine ⟨fun m hm => ?_, fun hp => absurd hp (by simp)⟩
    obtain rfl := Option.some.inj hm
    rcases hnone : r.project with _ | m
    · exact hh hnone
    · exact hproject m hnone
  | report => exact ⟨hproject, fun hp => ⟨hh hp, by simp⟩⟩
  | @read f rest fails hs =>
    refine ⟨hproject, fun hp => ⟨?_, fun p hp => ?_⟩⟩
    · have hhead : projectManifest (.file f :: rest) = project := hh hp
      rw [projectManifest, hs] at hhead
      exact hhead
    · obtain rfl := Option.some.inj hp
      exact trivial
  | @manifest f rest fails m e hs hn hp hm =>
    refine ⟨fun m' hm' => ?_, fun hp => absurd hp (by simp)⟩
    obtain rfl := Option.some.inj hm'
    have hhead : projectManifest (.file f :: rest) = project := hh hp
    rw [projectManifest, hs, hn, hm] at hhead
    exact hhead
  | @crash f rest fails e hs hn hp hm =>
    cases hb with
    | source h => exact absurd hm ((h (.file f) List.mem_cons_self).manifest f rfl hn e)
  | @copy f rest fails hs hn =>
    refine ⟨hproject, fun hp => ⟨?_, by simp⟩⟩
    have hname : ¬ f.name = Manifest.fileName := fun hname => hn hname hp
    have hhead : projectManifest (.file f :: rest) = project := hh hp
    rw [projectManifest, hs, if_neg (by simp [hname])] at hhead
    exact hhead
  | resolve hk hm hs =>
    refine ⟨hproject, fun _ => ⟨trivial, fun p hp => ?_⟩⟩
    obtain ⟨l, -, rfl⟩ := Option.map_eq_some_iff.1 hp
    exact trivial
  | _ => exact ⟨hproject, fun _ => ⟨trivial, by simp⟩⟩

/-- What a turn puts into the queue. -/
theorem Turns.queued (h : r.Turns i t r') : r'.merge.queue.filterMap id = r.merge.queue.filterMap id ++ t.items := by
  have hitems : (t.items.map some).filterMap id = t.items := by simp [List.filterMap_map]
  have hend : ((if t.after.isLive then [] else [none]) : List (Option Output)).filterMap id = [] := by
    split <;> rfl
  rw [h.queue, List.filterMap_append, List.filterMap_append, hitems, hend, List.append_nil]

/-! ## What is owed -/

/-- A build under way owes what the reference has for the dependencies that were begun, and goes on to those that are
wanted. -/
structure Owes (S : Site) (map : ImportMap) (items : List Output) (r : Run) (given : List Output) (begun : List Location) :
    Prop where
  /-- The cache is faithful. -/
  ready : r.Ready S map (projectManifest items)
  /-- Every producer will come to what it is to give. -/
  fits : ∀ p ∈ r.producers, S.Fits map (projectManifest items) r.cache p
  /-- As long as the manifest of the project is not known, it is still to come. -/
  heads : r.project = none → ∀ p ∈ r.producers, p.Heads (projectManifest items)
  /-- The dependencies that were begun are kept. -/
  handled : r.handled = begun.map written
  /-- They are reachable. -/
  reachable : ∀ l ∈ begun, S.Reachable map items l
  /-- What was given, waits to be taken and is owed is what the reference has. -/
  gives : (given ++ r.merge.queue.filterMap id ++ r.producers.flatMap (S.gives map (projectManifest items) r.cache)).Perm
    (S.reference map items begun)
  /-- The locations that are needed so far were begun, or are wanted. -/
  wants : ∀ l, (l ∈ items.flatMap (S.projectNeeds map (projectManifest items)) ∨
      l ∈ begun.flatMap (S.dependencyNeeds map)) ↔
    (l ∈ begun ∨ l ∈ r.producers.flatMap (S.wants map (projectManifest items) r.cache))

theorem Owes.reachable_of_wanted (h : Owes S map items r given begun) {p : Producer} (hp : p ∈ r.producers) {l : Location}
    (hl : l ∈ S.wants map (projectManifest items) r.cache p) : S.Reachable map items l := by
  rcases (h.wants l).2 (Or.inr (List.mem_flatMap.2 ⟨p, hp, hl⟩)) with hneeds | hneeds
  · obtain ⟨o, ho, hl⟩ := List.mem_flatMap.1 hneeds
    exact .project ho hl
  · obtain ⟨k, hk, hl⟩ := List.mem_flatMap.1 hneeds
    exact .dependency (h.reachable k hk) hl

/-- A shaped location whose text is among those of the dependencies that were begun was begun. -/
theorem Owes.mem_begun (h : Owes S map items r given begun) {l : Location} (hl : l.Shaped) (hmem : written l ∈ r.handled) :
    l ∈ begun := by
  rw [h.handled] at hmem
  obtain ⟨k, hk, hsame⟩ := List.mem_map.1 hmem
  rwa [← (h.reachable k hk).shaped.eq_of_written hl hsame]

/-- What producers owe stays when the cache grows. -/
theorem flatMap_same {c c' : Cache} {producers : List Producer} (hfits : ∀ p ∈ producers, S.Fits map project c p)
    (he : c.Extends c') (hc : S.Faithful project c) (hc' : S.Faithful project c') (hS : S.Consistent project) :
    producers.flatMap (S.gives map project c') = producers.flatMap (S.gives map project c) ∧
      producers.flatMap (S.wants map project c') = producers.flatMap (S.wants map project c) :=
  ⟨List.flatMap_congr fun p hp => ((hfits p hp).same he hc hc' hS).1,
    List.flatMap_congr fun p hp => ((hfits p hp).same he hc hc' hS).2⟩

/-- A dependency that a turn begins was wanted. -/
theorem Acts.wanted (h : r.Acts t) {l : Location} (hl : t.begun = some l) (c : Cache) :
    l ∈ S.wants map project c t.before := by
  cases h with
  | begin h => exact List.mem_singleton.2 (Option.some.inj hl).symm
  | _ => exact absurd hl (by simp)

/-- What one producer owed is given or owed behind its turn, so that all that is given and owed goes with what was begun. -/
theorem account_perm {given queued gave before after child others back passed owed new : List Output}
    (hturn : (before ++ new).Perm (gave ++ (after ++ child)))
    (hall : (passed ++ owed).Perm (given ++ queued ++ (before ++ others)))
    (hback : back.Perm (after ++ (others ++ child))) :
    (given ++ (queued ++ gave) ++ back).Perm (passed ++ (new ++ owed)) := by
  rw [← Multiset.coe_eq_coe] at hturn hall hback ⊢
  simp only [← Multiset.coe_add] at hturn hall hback ⊢
  generalize (given : Multiset Output) = given, (queued : Multiset Output) = queued, (gave : Multiset Output) = gave,
    (before : Multiset Output) = before, (after : Multiset Output) = after, (child : Multiset Output) = child,
    (others : Multiset Output) = others, (passed : Multiset Output) = passed, (owed : Multiset Output) = owed,
    (new : Multiset Output) = new at *
  calc given + (queued + gave) + back
      = given + queued + others + (gave + (after + child)) := by rw [hback]; abel
    _ = given + queued + (before + others) + new := by rw [← hturn]; abel
    _ = passed + (new + owed) := by rw [← hall]; abel

/-- What one producer wanted is begun or wanted behind its turn, so that all that is needed is begun or wanted. -/
theorem account_iff {before needed after child new known begun projected owed others : Prop}
    (hturn : before ∨ needed ↔ ((after ∨ child) ∨ new) ∨ known) (hknown : known → begun)
    (hall : projected ∨ owed ↔ begun ∨ before ∨ others) :
    projected ∨ needed ∨ owed ↔ (new ∨ begun) ∨ after ∨ others ∨ child := by
  calc projected ∨ needed ∨ owed
      ↔ needed ∨ projected ∨ owed := or_left_comm
    _ ↔ (begun ∨ others) ∨ before ∨ needed := by rw [hall]; grind
    _ ↔ (begun ∨ others) ∨ ((after ∨ child) ∨ new) ∨ known := by rw [hturn]
    _ ↔ (new ∨ begun) ∨ after ∨ others ∨ child := by grind

/-- A turn keeps what is owed. -/
theorem Turns.owes (h : r.Turns i t r') (hS : S.Consistent (projectManifest items))
    (hP : ∀ url f, S.get url = .ok f → Plain f.file.content) (ho : Owes S map items r given begun) :
    Owes S map items r' given (t.begun.toList ++ begun) := by
  have hbefore := ho.fits _ h.mem_before
  obtain ⟨hc, he, hafter, hchild⟩ := h.acts.fits ho.ready hS hP hbefore
  obtain ⟨hknown, hheads⟩ := h.acts.heads ho.ready hbefore fun hp => ho.heads hp _ h.mem_before
  -- the other producers owe what they owed
  obtain ⟨others, hold, hnew⟩ := h.split
  have hfits : ∀ p ∈ others, S.Fits map (projectManifest items) r.cache p := fun p hp =>
    ho.fits p (hold.mem_iff.2 (List.mem_cons_of_mem _ hp))
  obtain ⟨hgives, hwants⟩ := flatMap_same hfits he ho.ready.faithful hc hS
  refine ⟨⟨h.cache ▸ hc, h.map.trans ho.ready.map, h.project ▸ hknown⟩, fun p hp => ?_, fun hnone p hp => ?_, ?_,
    fun l hl => ?_, ?_, fun l => ?_⟩
  · rw [h.cache]
    rcases h.mem_cases hp with hp | rfl | hp
    · exact (ho.fits p hp).mono he
    · exact hafter
    · exact hchild p hp
  · rw [h.project] at hnone
    rcases h.mem_cases hp with hp | rfl | hp
    · exact ho.heads (h.acts.project hnone).1 p hp
    · exact (hheads hnone).1
    · exact (hheads hnone).2 p hp
  · rw [h.handled, ho.handled, List.map_append]
    cases t.begun <;> rfl
  · rcases List.mem_append.1 hl with hl | hl
    · exact ho.reachable_of_wanted h.mem_before (h.acts.wanted (Option.mem_toList.1 hl) _)
    · exact ho.reachable l hl
  · have hturn := h.acts.gives ho.ready hS hbefore
    have hfront := ho.gives.symm.trans ((hold.flatMap_right _).append_left _)
    have hback := hnew.flatMap_right (S.gives map (projectManifest items) t.cache)
    rw [List.flatMap_cons, List.flatMap_append, hgives] at hback
    rw [reference, List.flatMap_cons] at hfront
    rw [h.cache, h.queued, reference, List.flatMap_append]
    exact account_perm hturn hfront hback
  · have hturn := h.acts.wants ho.ready hS hbefore l
    have hknown : t.before = .dependency l ∧ written l ∈ r.handled → l ∈ begun := by
      rintro ⟨hb, hl⟩
      rw [hb] at hbefore
      cases hbefore with
      | dependency hs _ => exact ho.mem_begun hs hl
    have hall := ho.wants l
    rw [(hold.flatMap_right _).mem_iff, List.flatMap_cons] at hall
    rw [h.cache, (hnew.flatMap_right _).mem_iff, List.flatMap_cons, @List.flatMap_append _ _ others, hwants,
      List.flatMap_append]
    simp only [List.mem_append] at hturn hall ⊢
    exact account_iff hturn hknown hall

/-- An answer of the site keeps what is owed. -/
theorem Owes.answer (ho : Owes S map items r given begun) (hS : S.Consistent (projectManifest items)) {n : Nat} {a : Answer}
    (ha : ∀ url, (n, url) ∈ r.cache.inFlight → a = S.cdn url) :
    Owes S map items { r with cache := r.cache.complete n a } given begun := by
  have hc := ho.ready.faithful.complete hS ha
  have hext : r.cache.Extends (r.cache.complete n a) := .complete
  obtain ⟨hgives, hwants⟩ := flatMap_same ho.fits hext ho.ready.faithful hc hS
  refine ⟨⟨hc, ho.ready.map, ho.ready.project⟩, fun p hp => (ho.fits p hp).mono .complete, ho.heads, ho.handled, ho.reachable,
    ?_, ?_⟩
  · dsimp only
    rw [hgives]
    exact ho.gives
  · dsimp only
    rw [hwants]
    exact ho.wants

/-- An entry that is taken goes on to count as given. -/
theorem Owes.take (ho : Owes S map items r given begun) {e : Option Output} {q : Merge Output}
    (ht : r.merge.take? = some (e, q)) : Owes S map items { r with merge := q } (given ++ e.toList) begun := by
  refine ⟨⟨ho.ready.faithful, ho.ready.map, ho.ready.project⟩, ho.fits, ho.heads, ho.handled, ho.reachable, ?_, ho.wants⟩
  have hgives := ho.gives
  rw [(Merge.take?_eq_some ht).1] at hgives
  cases e with
  | none => simpa using hgives
  | some o => simpa using hgives

/-- A move keeps what is owed, if an answer is one of the site. -/
theorem Owes.step (ho : Owes S map items r given begun) (hS : S.Consistent (projectManifest items))
    (hP : ∀ url f, S.get url = .ok f → Plain f.file.content) (m : Move)
    (ha : ∀ n a url, m = .answer n a → (n, url) ∈ r.cache.inFlight → a = S.cdn url) :
    ∃ more, Owes S map items (r.step m) (given ++ r.took m) (more ++ begun) := by
  have hrest : Owes S map items r (given ++ []) ([] ++ begun) := by rwa [List.append_nil]
  cases m with
  | produce i =>
    show ∃ more, Owes S map items (r.produce i) (given ++ []) (more ++ begun)
    rcases r.produce_turns i with ⟨h, -⟩ | ⟨t, ht⟩
    · exact ⟨[], by rwa [h]⟩
    · exact ⟨_, List.append_nil given ▸ ht.owes hS hP ho⟩
  | resolve i k =>
    show ∃ more, Owes S map items (r.resolve i k) (given ++ []) (more ++ begun)
    rcases r.resolve_turns i k with h | ⟨t, ht⟩
    · exact ⟨[], by rwa [h]⟩
    · exact ⟨_, List.append_nil given ▸ ht.owes hS hP ho⟩
  | answer n a =>
    refine ⟨[], ?_⟩
    rw [show r.took (.answer n a) = [] from rfl, List.append_nil]
    exact ho.answer hS fun url => ha n a url rfl
  | take =>
    refine ⟨[], ?_⟩
    unfold Run.step took
    dsimp only
    split
    · next e q ht =>
      rw [ht]
      exact ho.take ht
    · next ht =>
      rw [ht]
      exact hrest

/-! ## Many moves -/

/-- A build that has rewritten nothing so far. -/
def fresh (map : ImportMap) (url : String) : Run := { map, cache := .empty url }

theorem owes_begin {url : String} (hb : S.base = withFinalSlash url) (hread : ∀ o ∈ items, Site.Readable o) (fails : Bool) :
    Owes S map items ((fresh map url).begin items fails) [] [] where
  ready := ⟨.empty hb, rfl, by simp [begin, spawn]⟩
  fits p hp := by
    obtain rfl : p = .source items fails := by simpa [begin, spawn] using hp
    exact .source hread
  heads _ p hp := by
    obtain rfl : p = .source items fails := by simpa [begin, spawn] using hp
    rfl
  handled := rfl
  reachable := by simp
  gives := by simp [begin, spawn, fresh, Merge.add, Site.gives, reference]
  wants := by simp [begin, spawn, Site.wants]

/-- After any moves that a consistent site answers, what was given, waits or is owed is what the reference has. -/
theorem owes_play (ho : Owes S map items r [] []) (hS : S.Consistent (projectManifest items))
    (hP : ∀ url f, S.get url = .ok f → Plain f.file.content) (ha : AnsweredBy S r ms) :
    ∃ begun, Owes S map items (r.play ms) (r.taken ms) begun := by
  induction ms using List.reverseRecOn with
  | nil => exact ⟨[], ho⟩
  | append_singleton ms m ih =>
    obtain ⟨begun, hbefore⟩ := ih (ha.of_prefix (List.prefix_append ms [m]))
    obtain ⟨more, hstep⟩ := hbefore.step hS hP m fun n a url hm => ha ms n a url (hm ▸ List.prefix_rfl)
    rw [play_concat, taken_concat]
    exact ⟨more ++ begun, hstep⟩

/-- Behind a build that is over, the dependencies that were begun are those that are reachable, and what was given is what the
reference has for them. -/
theorem Owes.over (ho : Owes S map items r given begun) (hs : r.Sound) (hover : r.merge.isOver = true) :
    begun.Nodup ∧ (∀ l, l ∈ begun ↔ S.Reachable map items l) ∧ given.Perm (S.reference map items begun) := by
  have hended : ∀ p ∈ r.producers, p = .ended := by
    intro p hp
    obtain ⟨i, hi⟩ := List.mem_iff_getElem?.1 hp
    exact @ended_of_over r [] i hs hover p hi
  have hgives : r.producers.flatMap (S.gives map (projectManifest items) r.cache) = [] :=
    List.flatMap_eq_nil_iff.2 fun p hp => by rw [hended p hp]; rfl
  have hwants : r.producers.flatMap (S.wants map (projectManifest items) r.cache) = [] :=
    List.flatMap_eq_nil_iff.2 fun p hp => by rw [hended p hp]; rfl
  obtain ⟨-, hqueue, -⟩ := hs.balanced.over hover
  refine ⟨.of_map written (ho.handled ▸ hs.distinct), fun l => ⟨ho.reachable l, fun hl => ?_⟩, ?_⟩
  · have hneeded : ∀ l, (l ∈ items.flatMap (S.projectNeeds map (projectManifest items)) ∨
        l ∈ begun.flatMap (S.dependencyNeeds map)) → l ∈ begun := by
      intro l hl
      have hl' := (ho.wants l).1 hl
      rw [hwants] at hl'
      exact hl'.resolve_right List.not_mem_nil
    induction hl with
    | project ho hl => exact hneeded _ (Or.inl (List.mem_flatMap.2 ⟨_, ho, hl⟩))
    | dependency _ hl ih => exact hneeded _ (Or.inr (List.mem_flatMap.2 ⟨_, ih, hl⟩))
  · have hall := ho.gives
    rwa [hgives, hqueue, List.filterMap_nil, List.append_nil, List.append_nil] at hall

/-! ## Schedules that a site answers -/

/-- The move that has a number: every move comes again and again, and a request is answered as the site answers it. -/
def answering (S : Site) (r : Run) (n : Nat) : Move :=
  match everyMove n with
  | .answer j a => .answer j ((r.cache.downloads[j]?).elim a fun d => S.cdn (r.cache.urlOf d))
  | m => m

/-- What these moves do. -/
def following (S : Site) (r : Run) : Nat → Run
  | 0 => r
  | n + 1 => (following S r n).step (answering S (following S r n) n)

/-- The schedule of these moves. -/
def following.schedule (S : Site) (r : Run) (n : Nat) : Move := answering S (following S r n) n

theorem after_following (S : Site) (r : Run) (n : Nat) : r.after (following.schedule S r) n = following S r n := by
  induction n with
  | zero => rfl
  | succ n ih =>
    rw [after, ih]
    rfl

/-- On any site there is a schedule in which every producer goes on and requests are answered as the site answers them. -/
theorem fair_following (S : Site) (r : Run) : Fair r (following.schedule S r) ∧
    ∀ n, AnsweredBy S r ((List.range n).map (following.schedule S r)) := by
  have hfair := fair_everyMove r
  refine ⟨⟨fun n i => ?_, fun n i k => ?_, fun n => ?_, fun n j url hj => ?_⟩, fun n => ?_⟩
  · obtain ⟨m, hm, hmove⟩ := hfair.produce n i
    exact ⟨m, hm, by rw [following.schedule, answering, hmove]⟩
  · obtain ⟨m, hm, hmove⟩ := hfair.resolve n i k
    exact ⟨m, hm, by rw [following.schedule, answering, hmove]⟩
  · obtain ⟨m, hm, hmove⟩ := hfair.take n
    exact ⟨m, hm, by rw [following.schedule, answering, hmove]⟩
  · obtain ⟨m, hm, hmove⟩ := exists_everyMove_answer n j
    exact ⟨m, hm, _, by rw [following.schedule, answering, hmove]⟩
  · induction n with
    | zero => exact .of_no_answer r (by simp)
    | succ n ih =>
      rw [List.range_succ, List.map_append]
      refine ih.append ?_
      rw [← after_eq_play, after_following]
      show AnsweredBy S (following S r n) [answering S (following S r n) n]
      unfold answering
      split
      · next j a hmove =>
        refine .single fun url hurl => ?_
        obtain ⟨d, hd, -, rfl⟩ := Cache.mem_inFlight.1 hurl
        rw [hd]
        rfl
      · next hmove => exact .of_no_answer _ fun m hm k b hk => hmove k b (by rw [← List.mem_singleton.1 hm, hk])

/-! ## A build and its reference -/

/-- A site that serves the dependency under the URL of its version and path, and nothing else. -/
def kiosk : Site :=
  ⟨"https://cdn.test/", fun url => if url = served.url then .ok served else .error (.unexpected "closed")⟩

theorem get_kiosk : kiosk.get served.url = .ok served.fetched := by
  have hcdn : kiosk.cdn served.url = .ok served := by simp [kiosk]
  unfold Site.get
  rw [hcdn]
  rfl

theorem of_get_kiosk {url : String} {f : Cdn.Fetched} (h : kiosk.get url = .ok f) :
    url = served.url ∧ f = served.fetched := by
  unfold Site.get kiosk at h
  dsimp only at h
  by_cases hurl : url = served.url
  · rw [if_pos hurl] at h
    exact ⟨hurl, (Except.ok.inj h).symm⟩
  · rw [if_neg hurl] at h
    exact absurd h (by simp)

theorem key_of_fetch_kiosk {l : Location} {f : Cdn.Fetched} (h : kiosk.fetch l = .ok f) :
    l.key = x.key ∧ f = served.fetched := by
  obtain ⟨hurl, hf⟩ := of_get_kiosk h
  have hserved : served.url = kiosk.base ++ x.key := by decide
  rw [hserved, ← String.toList_inj, String.toList_append, String.toList_append, List.append_cancel_left_eq,
    String.toList_inj] at hurl
  exact ⟨hurl, hf⟩

theorem shaped_x : x.Shaped := ⟨by decide, by decide⟩

theorem consistent_kiosk : kiosk.Consistent none where
  pinned pkg range path f hpkg hx hnames hf := by
    obtain ⟨hkey, rfl⟩ := key_of_fetch_kiosk hf
    rcases hnames with hrange | hrange | ⟨url, f, m, hget, hm, -⟩
    · have hexact := Shaped.isExact_of_key ⟨hpkg, hrange⟩ shaped_x hkey
      exact absurd (hx.symm.trans hexact) (by decide)
    · exact absurd hrange (by simp [Manifest.range?])
    · obtain ⟨-, rfl⟩ := of_get_kiosk hget
      have hnone : (readManifest served.fetched).toOption = none := by decide +kernel
      rw [hm] at hnone
      exact absurd hnone (by simp [Except.toOption])
  served pkg v path f hpkg hv hf := by
    obtain ⟨hkey, rfl⟩ := key_of_fetch_kiosk hf
    have hshaped : (⟨pkg, v, path⟩ : Location).Shaped := ⟨hpkg, not_mem_of_isExact hv⟩
    obtain ⟨rfl, hrange⟩ := hshaped.same_of_key shaped_x hkey
    have hexact : (⟨x.pkg, v, path⟩ : Location).range = v := range_of_isExact hv
    obtain rfl : v = "1.0.0" := hexact.symm.trans hrange
    refine ⟨"x.js", by decide, by decide, by decide, by decide, get_kiosk, fun hext hhead => ?_⟩
    have hplain : (⟨x.pkg, "1.0.0", path⟩ : Location).key = x.pkg ++ "@" ++ "1.0.0" ++ "/" ++ path :=
      key_of_plain (ne_empty_of_isExact hv) hhead (FileName.getLast?_of_extension hext)
    have hx : x.key = x.pkg ++ "@" ++ "1.0.0" ++ "/" ++ "x.js" := by decide
    rw [hplain, hx, String.append_right_inj] at hkey
    exact hkey.symm

/-- The moves before the dependency is answered. -/
def onward : List Move := [.produce 0, .produce 1] ++ [.produce 0, .resolve 1 1]

theorem plain_importing : Plain importing := by
  intro imports himports i hi name hname hk l hl
  obtain rfl : imported = imports := Except.ok.inj (imports_importing.symm.trans himports)
  unfold imported at hi
  simp only [List.mem_cons, List.not_mem_nil, or_false] at hi
  rcases hi with rfl | rfl
  · obtain rfl := Option.some.inj hname
    obtain rfl : x = l := Option.some.inj ((by decide : parse? "a@1.0.0/x.js".toList = some x).symm.trans hl)
    decide
  · obtain rfl := Option.some.inj hname
    exact absurd hk (by decide)

theorem answeredBy_kiosk : AnsweredBy kiosk opened journey := by
  have hjourney : journey = onward ++ [Move.answer 0 (.ok served)] ++ journey.drop 5 := rfl
  have hplay : opened.play onward = parsed.play [.produce 0, .resolve 1 1] := by
    rw [onward, play_opening, step_parsed]
  have hflight : (parsed.play [.produce 0, .resolve 1 1]).cache.inFlight = [(0, served.url)] := by decide +kernel
  rw [hjourney]
  refine .append (.append (.of_no_answer _ (by simp [onward])) (.single fun url hurl => ?_)) (.of_no_answer _ (by simp [journey, outward, homeward]))
  rw [hplay, hflight] at hurl
  obtain ⟨-, rfl⟩ := Prod.mk.inj (List.mem_singleton.1 hurl)
  simp [kiosk]

end Run

end BareImports.Build
