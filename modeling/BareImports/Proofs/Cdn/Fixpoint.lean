import BareImports.Proofs.Cdn.Locating

/-!
# A canonical location is its own canonical location

* `Fixed S` : a final URL below the base URL is the canonical URL of an exact location, which answers as itself;
* `Cache.Kept c` : something answers for the key of every final URL in canonical form; `kept_play`;
* `Cache.Final S c m` : `m` is a location that a call has come to; `answers_final`, `Final.resume`, `Final.answers`;
* `location_fixed` : a call for such a location comes to it without a request.
-/

namespace BareImports.Cdn

open Build (Site)
open Location Text

/-- A final URL below the base URL is the canonical URL of an exact location, and answers as itself. -/
def Fixed (S : Site) : Prop :=
  ∀ l f, S.fetch l = .ok f → (after? S.base f.url.toList).isSome = true → ∃ m, parseUrl? S.base f.url = some m ∧
    Version.isExact m.version = true ∧ f.url = S.base ++ m.key ∧ ∃ f', S.fetch m = .ok f' ∧ f'.url = f.url

section Fixed

variable {S : Site} {l m : Location}

theorem Fixed.of_parseUrl? (hS : Fixed S) {f : Fetched} (hf : S.fetch l = .ok f) (hm : parseUrl? S.base f.url = some m) :
    Version.isExact m.version = true ∧ f.url = S.base ++ m.key ∧ finalLocation S m = .ok m := by
  have hbelow : (after? S.base f.url.toList).isSome = true := by
    obtain ⟨s, hs, -⟩ := Option.bind_eq_some_iff.1 hm
    rw [hs]
    rfl
  obtain ⟨k, hk, hx, hurl, f', hf', hsame⟩ := hS l f hf hbelow
  obtain rfl : k = m := Option.some.inj (hk.symm.trans hm)
  exact ⟨hx, hurl, finalLocation_eq_ok.2 ⟨f', hf', by rw [hsame, hk]⟩⟩

/-- Locations with one key that final URLs name are the same. -/
theorem Fixed.eq_of_key (hS : Fixed S) {j k : Location} (hj : finalLocation S j = .ok l) (hk : finalLocation S k = .ok m)
    (hkey : l.key = m.key) : l = m := by
  obtain ⟨f, hf, hl⟩ := finalLocation_eq_ok.1 hj
  obtain ⟨g, hg, hm⟩ := finalLocation_eq_ok.1 hk
  obtain ⟨-, hurl, -⟩ := hS.of_parseUrl? hf hl
  obtain ⟨-, hurl', -⟩ := hS.of_parseUrl? hg hm
  rw [hurl, hkey, ← hurl', hm] at hl
  exact (Option.some.inj hl).symm

end Fixed

namespace Cache

variable {S : Site} {c c' : Cache} {l m : Location}

/-! ## What is kept -/

/-- Something answers for the key of every final URL in canonical form. -/
def Kept (c : Cache) : Prop :=
  ∀ (n : Nat) (f : Fetched) (m : Location), c.outcome? n = some (.ok f) → parseUrl? c.base f.url = some m →
    f.url = c.base ++ m.key → ∃ s, c.files.lookup m.key = some s

theorem Kept.empty (url : String) : Kept (.empty url) := by
  intro n f m hf
  simp [Cache.outcome?, Cache.empty] at hf

theorem Kept.goes (h : c.Kept) {g : Goal} {o : Cache × Status g} (ho : c.Goes l o) : o.1.Kept := by
  have hext := ho.extends
  intro n f m hf hm hurl
  have hbefore : c.outcome? n = some (.ok f) := by
    rcases ho.started with he | ⟨k, exact, he, -⟩
    · rwa [he] at hf
    · rw [he] at hf
      unfold Cache.outcome? at hf ⊢
      rw [getElem?_startDownload] at hf
      split at hf
      · exact absurd hf (by simp)
      · exact hf
  rw [hext.base] at hm hurl
  obtain ⟨s, hs⟩ := h n f m hbefore hm hurl
  exact ⟨s, hext.files _ _ hs⟩

theorem Kept.complete (h : c.Kept) (hc : c.Sound) {n : Nat} {a : Answer} : (c.complete n a).Kept := by
  by_cases hfl : ∃ d, c.downloads[n]? = some d ∧ d.outcome = none
  swap
  · rw [complete_eq_self fun d hd ho => hfl ⟨d, hd, ho⟩]
    exact h
  obtain ⟨d, hd, ho⟩ := hfl
  intro k f m hf hm hurl
  rw [base_complete] at hm hurl
  unfold Cache.outcome? at hf
  rw [getElem?_complete hd ho] at hf
  split at hf
  · -- the download that is answered: the file is kept under the key of its final URL
    obtain ⟨r, rfl, h200, rfl, -⟩ := judge_eq_ok (Option.some.inj hf)
    exact files_complete_ok hc hd ho h200 hm hurl
  · obtain ⟨s, hs⟩ := h k f m hf hm hurl
    exact ⟨s, Extends.complete.files _ _ hs⟩

/-! ## Locations that calls have come to -/

/-- A location that a call has come to. If a call for it needs a file, one answers for its key and leads to itself. -/
structure Final (S : Site) (c : Cache) (m : Location) : Prop where
  /-- Its version is exact. -/
  exact : Version.isExact m.version = true
  /-- If it has no extension, it is its own final location. -/
  self : FileName.extension m.path.toList = [] → finalLocation S m = .ok m
  /-- If it has no extension, something answers for its key. -/
  kept : FileName.extension m.path.toList = [] → ∃ s, c.files.lookup m.key = some s

theorem Final.mono (h : c.Final S m) (he : Extends c c') : c'.Final S m :=
  ⟨h.exact, h.self, fun hl => (h.kept hl).imp fun _ hs => he.files _ _ hs⟩

/-- A call comes to a final location. -/
theorem answers_final (hS : Fixed S) (hr : c.Reads S) (hc : c.Sound) (hk : c.Kept)
    (h : c.Answers l .location (.ok m)) : c.Final S m := by
  generalize hx : (Except.ok m : Except Failure (Goal.Result .location)) = x at h
  cases h with
  | @served j r hj hserved =>
    obtain ⟨f, rfl⟩ := Session.finish_eq_ok (g := .location) hx.symm
    have hm : parseUrl? c.base f.url = some m := readUrl_eq_ok.1 hx.symm
    obtain ⟨n, hn⟩ : ∃ n, c.outcome? n = some (.ok f) := by
      rcases hserved with ⟨n, d, hd, -, ho⟩ | ⟨f', hf', hsame⟩
      · exact ⟨n, Option.bind_eq_some_iff.2 ⟨d, hd, ho⟩⟩
      · rw [Except.ok.inj hsame]
        exact (hc.known _ f' hf').2
    obtain ⟨d, -, hfetch⟩ := hr.outcome? hn
    obtain ⟨hexact, hurl, hself⟩ := hS.of_parseUrl? hfetch (hr.base ▸ hm)
    exact ⟨hexact, fun _ => hself, fun _ => hk n f m hn hm (hr.base ▸ hurl)⟩
  | @immediate j j' a hj hj' ha =>
    -- an extension and a version that a final URL has named
    obtain ⟨hext, rfl⟩ := immediate?_eq_some ha
    obtain rfl : m = a := Except.ok.inj hx
    refine ⟨?_, fun hno => absurd hno hext, fun hno => absurd hno hext⟩
    cases hj' with
    | exact hexact => exact hexact
    | pinned _ _ hv =>
      obtain ⟨f, k, hf, hk, rfl⟩ := versionOf?_eq_some hv
      obtain ⟨d, -, hfetch⟩ := hr.outcome? hf
      have hexact := hS.of_parseUrl? hfetch (hr.base ▸ hk)
      exact hexact.1

/-- A call for a final location starts no download. -/
theorem Final.resume (h : c.Final S m) {w : Wait} (hw : c.Expects m w) : (c.resume .location w).1 = c := by
  cases hw with
  | turn =>
    by_cases hext : FileName.extension m.path.toList = []
    · show (c.start .location m).1 = c
      have hnone : Goal.location.immediate? m = none := by
        unfold Goal.immediate?
        simp [hext]
      unfold Cache.start Cache.settle Cache.request
      rw [if_pos (by rfl), version_of_isExact h.exact]
      dsimp only
      rw [hnone, version_of_isExact h.exact]
      dsimp only
      obtain ⟨s, hs⟩ := h.kept hext
      unfold Cache.obtain
      rw [hs]
      cases s <;> rfl
    · rw [resume_of_extension h.exact hext]
  | version hj hx _ =>
    rw [hj.eq_of_isExact h.exact, h.exact] at hx
    exact absurd hx (by simp)
  | request hj hx _ =>
    rw [hj.eq_of_isExact h.exact, h.exact] at hx
    exact absurd hx (by simp)
  | outcome _ _ _ => rfl

/-- A call for a final location without an extension comes to it. -/
theorem Final.answers (h : c.Final S m) (hS : Fixed S) (hr : c.Reads S) (hc : c.Sound)
    (hext : FileName.extension m.path.toList = []) {r : Except Failure (Goal.Result .location)}
    (ha : c.Answers m .location r) : r = .ok m := by
  cases ha with
  | @served j x hj hserved =>
    obtain rfl := hj.eq_of_isExact h.exact
    rw [hr.base]
    rcases hr.served hc hserved with hsame | ⟨k, i, hi, hkey, hsame⟩
    · rw [hsame, h.self hext]
    · rw [hsame, hS.eq_of_key hi (h.self hext) hkey]
  | @immediate j j' a hj hj' ha =>
    obtain rfl := hj.eq_of_isExact h.exact
    cases hj' with
    | exact _ => exact absurd ha (by simp [Goal.immediate?, hext])
    | pinned hx _ _ => exact absurd h.exact (by simp [hx])

end Cache

namespace Session

open Cache

variable {S : Site}

theorem kept_play (url : String) (moves : List Move) : ((empty url).play moves).cache.Kept := by
  refine play_induction (P := fun s => s.cache.Kept) (.empty url) (.empty url) fun s m _ hs h => ?_
  have hdoes := step_cases hs m
  generalize s.step m = s' at hdoes ⊢
  cases hdoes with
  | call c => exact h
  | go hk ho => exact h.goes ho
  | rest => exact h
  | answer n a => exact h.complete hs.cache

section Calls

variable {s : Session} {m : Location} {k : Nat} {slot : Slot}

/-- A call for a final location leaves the cache as it is. -/
theorem cache_step_go (hs : s.Sound) (hm : s.cache.Final S m) (hk : s.slots[k]? = some slot)
    (hcall : slot.call = ⟨.location, m⟩) : (s.step (.go k)).cache = s.cache := by
  obtain ⟨call, status⟩ := slot
  obtain rfl : call = ⟨.location, m⟩ := hcall
  unfold step
  dsimp only
  rw [hk]
  cases status with
  | done r => rfl
  | waiting w => exact hm.resume (hs.stands _ (List.mem_of_getElem? hk))

/-- A call for a final location has no other result. -/
theorem result_eq (hS : Fixed S) (hr : s.cache.Reads S) (hs : s.Sound) (hp : ∀ slot ∈ s.slots, Prompt slot)
    (hm : s.cache.Final S m) (hslot : slot ∈ s.slots) (hcall : slot.call = ⟨.location, m⟩) {x : Reply}
    (hx : slot.result? = some x) : x = ⟨.location, .ok m⟩ := by
  by_cases hext : FileName.extension m.path.toList = []
  · have hstands := hs.stands slot hslot
    obtain ⟨call, status⟩ := slot
    obtain rfl : call = ⟨.location, m⟩ := hcall
    cases status with
    | waiting w => exact absurd hx (by simp [Slot.result?])
    | done r =>
      have hresult : r = .ok m := hm.answers hS hr hs.cache hext hstands
      rw [← Option.some.inj hx, hresult]
  · rcases hp slot hslot m hcall hm.exact hext with rfl | rfl
    · exact absurd hx (by simp [Slot.result?])
    · exact (Option.some.inj hx).symm

end Calls

/-- Let every final URL below the base URL be the canonical URL of an exact location that answers as itself. If a call for
a location has come to `m`, then `m` has an exact version, and after any further moves a call for the location `m` starts
no download, has no result but `m`, and comes to it. -/
theorem location_fixed (S : Site) (url : String) (moves : List Move) (m : Location) (hb : S.base = withFinalSlash url)
    (hS : Fixed S) (hanswers : AnsweredBy S (.empty url) moves)
    (hm : ∃ slot ∈ ((empty url).play moves).slots, slot.result? = some ⟨.location, .ok m⟩) :
    Version.isExact m.version = true ∧
      ∀ later, AnsweredBy S ((empty url).play moves) later →
        let s := ((empty url).play moves).play later
        (∀ k slot, s.slots[k]? = some slot → slot.call = ⟨.location, m⟩ → (s.step (.go k)).cache = s.cache ∧
          ∀ x, slot.result? = some x → x = ⟨.location, .ok m⟩) ∧
        ∃ n, let t := run (m := Id) S.cdn n (s.step (.call ⟨.location, m⟩))
          t.slots.map Slot.call = s.slots.map Slot.call ++ [⟨.location, m⟩] ∧
          ∀ slot ∈ t.slots, slot.call = ⟨.location, m⟩ → slot.result? = some ⟨.location, .ok m⟩ := by
  have hs := sound_play url moves
  have hfinal : ((empty url).play moves).cache.Final S m := by
    obtain ⟨⟨call, status⟩, hslot, hres⟩ := hm
    have hstands := hs.stands _ hslot
    cases status with
    | waiting w => exact absurd hres (by simp [Slot.result?])
    | done r =>
      obtain ⟨hgoal, hresult⟩ := Reply.mk.inj (Option.some.inj hres)
      obtain ⟨goal, l⟩ := call
      obtain rfl : goal = .location := hgoal
      obtain rfl : r = .ok m := eq_of_heq hresult
      exact answers_final hS (reads_play hb hanswers) hs.cache (kept_play url moves) hstands
  -- whatever moves follow, the session is one after moves that the site answers
  have hall : ∀ later, AnsweredBy S ((empty url).play moves) later →
      (((empty url).play moves).play later).cache.Reads S ∧ (((empty url).play moves).play later).Sound ∧
      (∀ slot ∈ (((empty url).play moves).play later).slots, Prompt slot) ∧
      (((empty url).play moves).play later).cache.Final S m := by
    intro later hlater
    refine ⟨Reads.play (reads_play hb hanswers) later hs hlater, hs.play later, ?_, hfinal.mono (hs.extends_play later)⟩
    rw [← play_append]
    exact prompt_play url (moves ++ later)
  refine ⟨hfinal.exact, fun later hlater => ⟨fun k slot hk hcall => ?_, ?_⟩⟩
  · obtain ⟨hr, hsound, hp, hf⟩ := hall later hlater
    exact ⟨cache_step_go hsound hf hk hcall,
      fun x hx => result_eq hS hr hsound hp hf (List.mem_of_getElem? hk) hcall hx⟩
  · obtain ⟨n, rounds, hrun, hrounds, hcalls, hdone⟩ :=
      exists_rounds S ((hs.play later).step (.call ⟨.location, m⟩))
    have hanswered : AnsweredBy S ((empty url).play moves) (later ++ .call ⟨.location, m⟩ :: rounds) :=
      hlater.append (answeredBy_call hrounds)
    have hplay : ((empty url).play moves).play (later ++ .call ⟨.location, m⟩ :: rounds) =
        (((((empty url).play moves).play later).step (.call ⟨.location, m⟩))).play rounds := play_append _ _ _
    obtain ⟨hr, hsound, hp, hf⟩ := hall _ hanswered
    rw [hplay] at hr hsound hp hf
    refine ⟨n, ?_⟩
    dsimp only
    rw [hrun]
    refine ⟨(calls_play rounds hcalls).trans List.map_append, fun slot hslot hcall => ?_⟩
    obtain ⟨x, hx⟩ := isDone_iff.1 hdone slot hslot
    rw [hx, result_eq hS hr hsound hp hf hslot hcall hx]

/-- Range `1` leads to version `1.0.0`, which has one file without an extension. -/
def plain : Site := serving
  [(⟨"a", "1", "x"⟩, ⟨200, "https://c/a@1.0.0/x", "A", none⟩),
    (⟨"a", "1.0.0", "x"⟩, ⟨200, "https://c/a@1.0.0/x", "A", none⟩)]

theorem fixed_plain : Fixed plain := by
  intro l f h _
  obtain ⟨row, hrow, rfl⟩ := of_fetch_serving h
  simp only [List.mem_cons, List.not_mem_nil, or_false] at hrow
  rcases hrow with rfl | rfl <;>
    exact ⟨⟨"a", "1.0.0", "x"⟩, by decide +kernel, by decide +kernel, by decide +kernel,
      (⟨200, "https://c/a@1.0.0/x", "A", none⟩ : Response).fetched, by rfl, rfl⟩

/-- A call for the canonical location of the range. -/
def plainMoves : List Move :=
  [.call ⟨.location, ⟨"a", "1", "x"⟩⟩, .go 0, .answer 0 (plain.cdn "https://c/a@1/x"), .go 0]

/-- The location of the range is the one of the exact version, which comes to itself. -/
theorem location_fixed_plain : AnsweredBy plain (.empty "https://c") plainMoves ∧
    (∃ slot ∈ ((empty "https://c").play plainMoves).slots,
      slot.result? = some ⟨.location, .ok ⟨"a", "1.0.0", "x"⟩⟩) ∧
    ∃ n, ∀ slot ∈ (run (m := Id) plain.cdn n (((empty "https://c").play plainMoves).step
      (.call ⟨.location, ⟨"a", "1.0.0", "x"⟩⟩))).slots,
      slot.call = ⟨.location, ⟨"a", "1.0.0", "x"⟩⟩ → slot.result? = some ⟨.location, .ok ⟨"a", "1.0.0", "x"⟩⟩ := by
  have hanswers : AnsweredBy plain (.empty "https://c") plainMoves :=
    answeredBy_call <| answeredBy_go <| answeredBy_answer (by decide +kernel) <| answeredBy_go trivial
  have hresult : ∃ slot ∈ ((empty "https://c").play plainMoves).slots,
      slot.result? = some ⟨.location, .ok ⟨"a", "1.0.0", "x"⟩⟩ := by
    refine ⟨⟨⟨.location, ⟨"a", "1", "x"⟩⟩, .done (.ok ⟨"a", "1.0.0", "x"⟩)⟩, ?_, rfl⟩
    exact List.mem_of_getElem? (show ((empty "https://c").play plainMoves).slots[0]? = _ by rfl)
  obtain ⟨-, hlater⟩ := location_fixed plain "https://c" plainMoves ⟨"a", "1.0.0", "x"⟩ (by decide +kernel) fixed_plain
    hanswers hresult
  obtain ⟨-, n, -, hn⟩ := hlater [] trivial
  exact ⟨hanswers, hresult, n, hn⟩

end Session

end BareImports.Cdn
