import BareImports.Proofs.Cdn.Requests
import BareImports.Proofs.Location.Key

/-!
# A range keeps the version that it was resolved to

* `Admits url moves` : shaped locations are asked for, and final URLs name exact versions;
* `Session.Pinned s` : a download resolves a version exactly if that of its location is inexact; `pinned_play`;
* `Cache.Under c d l` : download `d` asks for some path of the package and the range of `l`;
* `Cache.AnsweredAt c l v g a` : `a` comes from a request of which the requested or the final URL names `v`;
* `version_pinning` : at most one request for a range is in flight, the first that succeeds pins the version for ever.
-/

namespace BareImports.Cdn

open Location

namespace Cache

/-- A download asks for some path of the package and the range of a location. -/
def Under (c : Cache) (d : Download) (l : Location) : Prop :=
  ∃ path, c.urlOf d = c.base ++ ({ l with path := path } : Location).key

/-- A call for the package of `l` was answered by a request of which the requested or the final URL names version `v`. -/
inductive AnsweredAt (c : Cache) (l : Location) (v : String) (g : Goal) (a : g.Result) : Prop
  /-- The answer is what the request has brought. -/
  | file {n : Nat} {d : Download} {f : Fetched} (hd : c.downloads[n]? = some d) (ho : d.outcome = some (.ok f))
      (hv : c.Under d { l with version := v } ∨ ∃ m, parseUrl? c.base f.url = some m ∧ m.version = v)
      (ha : g.finish c.base (.ok f) = .ok a)
  /-- The answer is the location itself under the version that the request has brought. -/
  | name {n : Nat} {d : Download} {f : Fetched} {m : Location} (hd : c.downloads[n]? = some d)
      (ho : d.outcome = some (.ok f)) (hm : parseUrl? c.base f.url = some m) (hv : m.version = v)
      (ha : g.immediate? { l with version := v } = some a)

/-! ## Downloads under a range -/

/-- Downloads resolve a version exactly if that of their location is inexact, and what they bring names an exact one. -/
structure Pinned (c : Cache) : Prop where
  /-- The locations that are asked for are shaped. -/
  shaped : ∀ (n : Nat) (d : Download), c.downloads[n]? = some d → d.location.Shaped
  /-- A download resolves a version exactly if that of its location is inexact. -/
  resolves : ∀ (n : Nat) (d : Download), c.downloads[n]? = some d → d.resolves = !Version.isExact d.location.version
  /-- The final URL of a file names an exact version. -/
  exact : ∀ (n : Nat) (f : Fetched), c.outcome? n = some (.ok f) →
    ∃ l, parseUrl? c.base f.url = some l ∧ Version.isExact l.version = true

theorem parseUrl?_shaped {base url : String} {l : Location} (h : parseUrl? base url = some l) : l.Shaped := by
  unfold parseUrl? at h
  obtain ⟨s, -, hs⟩ := Option.bind_eq_some_iff.1 h
  exact parse?_shaped hs

section Pinned

variable {c : Cache} {l m : Location}

/-- Of a download that succeeded, the version is known, and it is exact. -/
theorem Pinned.versionOf? (h : c.Pinned) {n : Nat} {f : Fetched} (hf : c.outcome? n = some (.ok f)) :
    ∃ k, parseUrl? c.base f.url = some k ∧ Version.isExact k.version = true ∧ c.versionOf? n = some k.version := by
  obtain ⟨k, hk, he⟩ := h.exact n f hf
  exact ⟨k, hk, he, by simp [Cache.versionOf?, hf, hk]⟩

theorem versionOf?_eq_some {n : Nat} {v : String} (h : c.versionOf? n = some v) :
    ∃ f k, c.outcome? n = some (.ok f) ∧ parseUrl? c.base f.url = some k ∧ k.version = v := by
  unfold Cache.versionOf? at h
  split at h
  · next f hf =>
    obtain ⟨k, hk, hv⟩ := Option.map_eq_some_iff.1 h
    exact ⟨f, k, hf, hk, hv⟩
  · exact absurd h (by simp)

theorem Pinned.isExact_of_versionOf? (h : c.Pinned) {n : Nat} {v : String} (hv : c.versionOf? n = some v) :
    Version.isExact v = true := by
  obtain ⟨f, k, hf, hk, rfl⟩ := versionOf?_eq_some hv
  obtain ⟨k', hk', he⟩ := h.exact n f hf
  rw [hk] at hk'
  rw [Option.some.inj hk']
  exact he

theorem Resolves.shaped (h : c.Resolves l m) (hl : l.Shaped) : m.Shaped := by
  cases h with
  | exact h => exact hl
  | pinned h hn hv =>
    obtain ⟨f, k, -, hk, rfl⟩ := versionOf?_eq_some hv
    exact ⟨hl.package, (parseUrl?_shaped hk).version⟩

theorem Reaches.shaped (h : c.Reaches l m) (hl : l.Shaped) : m.Shaped := by
  induction h with
  | refl => exact hl
  | tail _ h ih => exact h.shaped ih

theorem Pinned.isExact_of_resolves (hp : c.Pinned) (h : c.Resolves l m) : Version.isExact m.version = true := by
  cases h with
  | exact h => exact h
  | pinned h hn hv => exact hp.isExact_of_versionOf? hv

/-- Versions that are taken repeatedly are taken once: the first one is exact. -/
theorem Pinned.reaches_cases (hp : c.Pinned) (h : c.Reaches l m) : m = l ∨ c.Resolves l m := by
  induction h with
  | refl => exact Or.inl rfl
  | tail _ h ih =>
    rcases ih with rfl | ih
    · exact Or.inr h
    · cases h with
      | exact _ => exact Or.inr ih
      | pinned hx _ _ => exact absurd (hp.isExact_of_resolves ih) (by simp [hx])

theorem Under.pkgVersion (hp : c.Pinned) {n : Nat} {d : Download} (hd : c.downloads[n]? = some d) (hl : l.Shaped)
    (h : c.Under d l) : d.location.pkgVersion = l.pkgVersion ∧
      Version.isExact d.location.version = Version.isExact l.version := by
  obtain ⟨path, hu⟩ := h
  have hkey := urlOf_eq.1 hu
  have hl' : ({ l with path := path } : Location).Shaped := ⟨hl.package, hl.version⟩
  have hr := (hp.shaped n d hd).pkgVersion_of_key hl' hkey
  have he := (hp.shaped n d hd).isExact_of_key hl' hkey
  exact ⟨hr, he⟩

/-- A download under an inexact range resolves it. -/
theorem Under.resolver (hp : c.Pinned) {n : Nat} {d : Download} (hd : c.downloads[n]? = some d) (hl : l.Shaped)
    (hx : Version.isExact l.version = false) (h : c.Under d l) : d.resolves = true ∧
      c.Resolver n l.pkgVersion := by
  obtain ⟨hr, he⟩ := h.pkgVersion hp hd hl
  have hres : d.resolves = true := by rw [hp.resolves n d hd, he, hx, Bool.not_false]
  exact ⟨hres, d, hd, hres, hr⟩

/-- While it has not failed, a download under an inexact range is the one in the table. -/
theorem Under.lookup (hc : Sound c) (hp : c.Pinned) {n : Nat} {d : Download} (hd : c.downloads[n]? = some d)
    (hl : l.Shaped) (hx : Version.isExact l.version = false) (h : c.Under d l) (ha : Alive d) :
    c.versions.lookup l.pkgVersion = some n := by
  rw [← (h.pkgVersion hp hd hl).1]
  exact hc.registered n d hd (h.resolver hp hd hl hx).1 ha

theorem Pinned.startDownload (h : c.Pinned) {exact : Bool} (hl : l.Shaped)
    (hx : exact = Version.isExact l.version) : (c.startDownload l exact).Pinned where
  shaped n d hd := by
    rw [getElem?_startDownload] at hd
    split at hd
    · rw [← Option.some.inj hd]; exact hl
    · exact h.shaped n d hd
  resolves n d hd := by
    rw [getElem?_startDownload] at hd
    split at hd
    · rw [← Option.some.inj hd, hx]
    · exact h.resolves n d hd
  exact n f hf := by
    unfold Cache.outcome? at hf
    rw [getElem?_startDownload] at hf
    split at hf
    · exact absurd hf (by simp)
    · exact h.exact n f hf

theorem Pinned.complete (h : c.Pinned) {n : Nat} {a : Answer} (ha : ∀ r, a = .ok r → r.status = 200 →
    ∃ l, parseUrl? c.base r.url = some l ∧ Version.isExact l.version = true) : (c.complete n a).Pinned := by
  by_cases hfl : ∃ d, c.downloads[n]? = some d ∧ d.outcome = none
  swap
  · rw [complete_eq_self fun d hd ho => hfl ⟨d, hd, ho⟩]
    exact h
  obtain ⟨d, hd, ho⟩ := hfl
  refine ⟨fun k e he => ?_, fun k e he => ?_, fun k f hf => ?_⟩
  · rw [getElem?_complete hd ho] at he
    split at he
    · rw [← Option.some.inj he]; exact h.shaped n d hd
    · exact h.shaped k e he
  · rw [getElem?_complete hd ho] at he
    split at he
    · rw [← Option.some.inj he]; exact h.resolves n d hd
    · exact h.resolves k e he
  · unfold Cache.outcome? at hf
    rw [getElem?_complete hd ho] at hf
    rw [base_complete]
    split at hf
    · obtain ⟨r, rfl, h200, rfl, -⟩ := judge_eq_ok (Option.some.inj hf)
      exact ha r rfl h200
    · exact h.exact k f hf

theorem Pinned.goes (h : c.Pinned) (hl : l.Shaped) {g : Goal} {o : Cache × Status g}
    (ho : c.Goes l o) : o.1.Pinned := by
  rcases ho.started with he | ⟨m, exact, he, -, hm, hunknown, hexact⟩
  · rw [he]
    exact h
  · rw [he]
    refine h.startDownload (hm.shaped hl) ?_
    cases exact with
    | false => exact (hunknown rfl).1.symm
    | true =>
      obtain ⟨m', -, hm'⟩ := hexact rfl
      exact (h.isExact_of_resolves hm').symm

end Pinned

end Cache

namespace Session

open Cache

/-- Shaped locations are asked for, and status 200 comes with a final URL that names an exact version. -/
structure Admits (url : String) (moves : List Move) : Prop where
  /-- Shaped locations are asked for. -/
  calls : ∀ c, .call c ∈ moves → c.location.Shaped
  /-- Status 200 comes with a final URL that names an exact version. -/
  answers : ∀ n r, .answer n (.ok r) ∈ moves → r.status = 200 →
    ∃ l, parseUrl? (withFinalSlash url) r.url = some l ∧ Version.isExact l.version = true

/-- The cache is pinned, and shaped locations were asked for. -/
structure Pinned (s : Session) : Prop where
  /-- The cache is pinned. -/
  cache : s.cache.Pinned
  /-- Shaped locations were asked for. -/
  calls : ∀ slot ∈ s.slots, slot.call.location.Shaped

theorem pinned_empty (url : String) : Pinned (.empty url) :=
  ⟨⟨by simp [empty, Cache.empty], by simp [empty, Cache.empty], by simp [empty, Cache.empty, Cache.outcome?]⟩,
    by simp [empty]⟩

/-- A move that is admitted keeps a session pinned. -/
theorem Does.pinned {url : String} {moves : List Move} (hm : Admits url moves) {s s' : Session} {m : Move}
    (hd : Does s m s') (hmem : m ∈ moves) (hb : s.cache.base = withFinalSlash url) (h : s.Pinned) : s'.Pinned := by
  cases hd with
  | call c =>
    refine ⟨h.cache, fun slot hslot => ?_⟩
    rcases List.mem_append.1 hslot with hslot | hslot
    · exact h.calls slot hslot
    · rw [List.mem_singleton.1 hslot]
      exact hm.calls c hmem
  | @go k c w o hk ho =>
    have hc : c.location.Shaped := h.calls _ (List.mem_of_getElem? hk)
    refine ⟨h.cache.goes hc ho, fun slot hslot => ?_⟩
    rcases List.mem_or_eq_of_mem_set hslot with hslot | rfl
    · exact h.calls slot hslot
    · exact hc
  | rest => exact h
  | answer n a =>
    refine ⟨h.cache.complete fun r hr h200 => ?_, h.calls⟩
    rw [hb]
    exact hm.answers n r (hr ▸ hmem) h200

theorem pinned_play {url : String} {moves : List Move} (hm : Admits url moves) : ((empty url).play moves).Pinned := by
  refine (play_induction (P := fun s => s.cache.base = withFinalSlash url ∧ s.Pinned) (.empty url)
    ⟨rfl, pinned_empty url⟩ fun s m hmem hs h => ?_).2
  have hd := step_cases hs m
  exact ⟨hd.extends.base.trans h.1, hd.pinned hm hmem h.1 h.2⟩

/-! ## Pinning -/

section Pinning

variable {s : Session} {l : Location}

/-- At most one request for an inexact range is in flight. -/
theorem Pinned.eq_of_inFlight (hs : s.Sound) (hp : s.Pinned) (hl : l.Shaped) (hx : Version.isExact l.version = false)
    {n k : Nat} {d e : Download} (hd : s.cache.downloads[n]? = some d) (he : s.cache.downloads[k]? = some e)
    (hdl : s.cache.Under d l) (hel : s.cache.Under e l) (hdo : d.outcome = none) (heo : e.outcome = none) : n = k := by
  have hn := hdl.lookup hs.cache hp.cache hd hl hx fun x => by rw [hdo]; simp
  rw [hel.lookup hs.cache hp.cache he hl hx fun x => by rw [heo]; simp] at hn
  exact (Option.some.inj hn).symm

/-- What the cache knows of a range that a download has resolved. -/
theorem Sound.version_eq (hs : s.Sound) (hx : Version.isExact l.version = false) {n : Nat} {v : String}
    (hn : s.cache.Resolver n l.pkgVersion) (hv : s.cache.versionOf? n = some v) :
    s.cache.versions.lookup l.pkgVersion = some n ∧
      ∀ path, s.cache.version { l with path := path } = .exact { l with path := path, version := v } := by
  obtain ⟨d, hd, hres, hr⟩ := hn
  obtain ⟨f, k, hf, -, -⟩ := versionOf?_eq_some hv
  have hlook := hs.cache.registered n d hd hres fun e ho => by
    simp [Cache.outcome?, hd, ho] at hf
  rw [hr] at hlook
  refine ⟨hlook, fun path => ?_⟩
  have hlook' : s.cache.versions.lookup ({ l with path := path } : Location).pkgVersion = some n := hlook
  unfold Cache.version
  rw [if_neg (by simp [hx]), hlook']
  simp only [hv]

/-- Once a request for a range has succeeded, no later one is for the range. -/
theorem Pinned.not_under_later (hs : s.Sound) (hp : s.Pinned) (hl : l.Shaped) (hx : Version.isExact l.version = false)
    {n : Nat} (hn : s.cache.versions.lookup l.pkgVersion = some n) {k : Nat} {e : Download} (hk : n < k)
    (he : s.cache.downloads[k]? = some e) : ¬ s.cache.Under e l := by
  intro hu
  have := hs.cache.youngest _ k n (hu.resolver hp.cache he hl hx).2 hn
  omega

theorem finish_eq_ok {g : Goal} {base : String} {r : Except Failure Fetched} {a : g.Result}
    (h : g.finish base r = .ok a) : ∃ f, r = .ok f := by
  cases r with
  | ok f => exact ⟨f, rfl⟩
  | error e => cases g <;> exact absurd h (by simp [Goal.finish, Except.map, Except.bind])

/-- What was served under the range itself comes from a download that has resolved it. -/
theorem Pinned.answeredAt_range (hs : s.Sound) (hp : s.Pinned) (hl : l.Shaped)
    (hx : Version.isExact l.version = false) {g : Goal} {a : g.Result} {f : Fetched}
    (hserved : s.cache.Served l.key (.ok f)) (ha : g.finish s.cache.base (.ok f) = .ok a) :
    ∃ n v, s.cache.Resolver n l.pkgVersion ∧ s.cache.versionOf? n = some v ∧ s.cache.AnsweredAt l v g a := by
  rcases hserved with ⟨n, d, hd, hk, ho⟩ | ⟨f', hf', hff⟩
  · have hout : s.cache.outcome? n = some (.ok f) := by simp [Cache.outcome?, hd, ho]
    obtain ⟨k, hkf, -, hv⟩ := hp.cache.versionOf? hout
    have hu : s.cache.Under d l := ⟨l.path, urlOf_eq.2 hk⟩
    exact ⟨n, k.version, (hu.resolver hp.cache hd hl hx).2, hv, .file hd ho (Or.inr ⟨k, hkf, rfl⟩) ha⟩
  · -- a file that is kept has the key of an exact version
    obtain rfl : f = f' := by simpa using hff
    obtain ⟨⟨l', hl', hkey⟩, n, hn⟩ := hs.cache.known _ f hf'
    obtain ⟨k, hk, he, -⟩ := hp.cache.versionOf? hn
    rw [hl'] at hk
    obtain rfl := Option.some.inj hk
    rw [(parseUrl?_shaped hl').isExact_of_key hl hkey, hx] at he
    exact absurd he (by simp)

/-- What was served under an exact version names it in the URL that was asked for or in the final one. -/
theorem Sound.answeredAt_exact (hs : s.Sound) {v : String}
    (hl : ({ l with version := v } : Location).Shaped) (hv : Version.isExact v = true) {g : Goal} {a : g.Result}
    {f : Fetched} (hserved : s.cache.Served ({ l with version := v } : Location).key (.ok f))
    (ha : g.finish s.cache.base (.ok f) = .ok a) : s.cache.AnsweredAt l v g a := by
  rcases hserved with ⟨n, d, hd, hk, ho⟩ | ⟨f', hf', hff⟩
  · exact .file hd ho (Or.inl ⟨l.path, urlOf_eq.2 hk⟩) ha
  · obtain rfl : f = f' := by simpa using hff
    obtain ⟨⟨l', hl', hkey⟩, n, hn⟩ := hs.cache.known _ f hf'
    obtain ⟨d, hd, ho⟩ := Option.bind_eq_some_iff.1 hn
    obtain ⟨-, hrange⟩ := (parseUrl?_shaped hl').same_of_key hl hkey
    have he : Version.isExact l'.version = true := by rw [(parseUrl?_shaped hl').isExact_of_key hl hkey, hv]
    rw [range_of_isExact he, range_of_isExact (l := { l with version := v }) hv] at hrange
    exact .file hd ho (Or.inr ⟨l', hl', hrange⟩) ha

/-- A call on an inexact range that succeeds is answered at the version that a download has resolved the range to. -/
theorem Pinned.answeredAt (hs : s.Sound) (hp : s.Pinned) (hl : l.Shaped) (hx : Version.isExact l.version = false)
    {g : Goal} {a : g.Result} (h : s.cache.Answers l g (.ok a)) : ∃ n v, s.cache.Resolver n l.pkgVersion ∧
      s.cache.versionOf? n = some v ∧ s.cache.AnsweredAt l v g a := by
  generalize hr : Except.ok a = r at h
  cases h with
  | @served m r hm hserved =>
    obtain ⟨f, rfl⟩ := finish_eq_ok hr.symm
    rcases hp.cache.reaches_cases hm with rfl | hm'
    · exact hp.answeredAt_range hs hl hx hserved hr.symm
    · have hshaped := hm'.shaped hl
      cases hm' with
      | exact he => exact absurd he (by simp [hx])
      | @pinned n v _ hn hv =>
        exact ⟨n, v, hn, hv, hs.answeredAt_exact hshaped (hp.cache.isExact_of_versionOf? hv) hserved hr.symm⟩
  | @immediate m m' a' hm hm' ha =>
    obtain rfl : a = a' := by simpa using hr
    have he := hp.cache.isExact_of_resolves hm'
    rcases hp.cache.reaches_cases (hm.tail hm') with rfl | hres
    · exact absurd he (by simp [hx])
    · cases hres with
      | exact h => exact absurd h (by simp [hx])
      | @pinned n v _ hn hv =>
        obtain ⟨f, k, hf, hk, hkv⟩ := versionOf?_eq_some hv
        obtain ⟨d, hd, ho⟩ := Option.bind_eq_some_iff.1 hf
        exact ⟨n, v, hn, hv, .name hd ho hk hkv ha⟩

/-- Let calls ask for shaped locations and status 200 come with final URLs that name exact versions. Of the requests
for an inexact range at most one is in flight. Once one has succeeded, whatever follows finds the range resolved to
the version that it has brought, and starts no request for it. A call on the range that succeeds is answered at the
version that the range is resolved to. -/
theorem version_pinning (url : String) (moves : List Move) (l : Location) (hm : Admits url moves) (hl : l.Shaped)
    (hx : Version.isExact l.version = false) :
    (∀ (n k : Nat) (d e : Download), ((empty url).play moves).cache.downloads[n]? = some d →
      ((empty url).play moves).cache.downloads[k]? = some e → ((empty url).play moves).cache.Under d l →
      ((empty url).play moves).cache.Under e l → d.outcome = none → e.outcome = none → n = k) ∧
    (∀ (n : Nat) (d : Download) (f : Fetched), ((empty url).play moves).cache.downloads[n]? = some d →
      ((empty url).play moves).cache.Under d l → d.outcome = some (.ok f) →
      ∃ m, parseUrl? (withFinalSlash url) f.url = some m ∧ Version.isExact m.version = true ∧
        ∀ later, Admits url (moves ++ later) →
          (∀ path, ((empty url).play (moves ++ later)).cache.version { l with path := path } =
            .exact { l with path := path, version := m.version }) ∧
          ∀ (k : Nat) (e : Download), ((empty url).play (moves ++ later)).cache.downloads[k]? = some e →
            ((empty url).play moves).cache.downloads.length ≤ k →
            ¬ ((empty url).play (moves ++ later)).cache.Under e l) ∧
    ∀ slot ∈ ((empty url).play moves).slots, slot.call.location.pkgVersion = l.pkgVersion →
      ∀ a, slot.status = .done (.ok a) → ∃ v,
        (∀ path, ((empty url).play moves).cache.version { l with path := path } =
          .exact { l with path := path, version := v }) ∧
        ((empty url).play moves).cache.AnsweredAt slot.call.location v slot.call.goal a := by
  have hs := sound_play url moves
  have hp := pinned_play hm
  have hb := base_play url moves
  refine ⟨fun n k d e hd he hdl hel hdo heo => hp.eq_of_inFlight hs hl hx hd he hdl hel hdo heo,
    fun n d f hd hdl ho => ?_, fun slot hslot hr a ha => ?_⟩
  · have hout : ((empty url).play moves).cache.outcome? n = some (.ok f) := by simp [Cache.outcome?, hd, ho]
    obtain ⟨m, hmf, he, hv⟩ := hp.cache.versionOf? hout
    rw [hb] at hmf
    refine ⟨m, hmf, he, fun later hlater => ?_⟩
    have hs' := sound_play url (moves ++ later)
    have hext : Extends ((empty url).play moves).cache ((empty url).play (moves ++ later)).cache := by
      rw [play_append]
      exact hs.extends_play later
    obtain ⟨hlook, hversion⟩ :=
      hs'.version_eq hx ((hdl.resolver hp.cache hd hl hx).2.mono hext) (hext.versionOf? hv)
    refine ⟨hversion, fun k e hek hk => ?_⟩
    have := lt_of_getElem? hd
    exact (pinned_play hlater).not_under_later hs' hl hx hlook (by omega) hek
  · have hshaped := hp.calls slot hslot
    obtain ⟨hpkg, hrange⟩ := same_of_pkgVersion hshaped.package hl.package hr
    have hx' : Version.isExact slot.call.location.version = false := by
      rw [← isExact_range, hrange, isExact_range, hx]
    have hstands := hs.stands slot hslot
    rw [ha] at hstands
    obtain ⟨n, v, hn, hv, hat⟩ := hp.answeredAt hs hshaped hx' hstands
    exact ⟨v, (hs.version_eq hx (hr ▸ hn) hv).2, hat⟩

/-- A range is asked for, answered under an exact version, and asked for again under another path. -/
def rangeMoves : List Move :=
  [.call ⟨.file, ⟨"a", "1", "x"⟩⟩, .go 0, .answer 0 (.ok ⟨200, "https://c/a@1.0.0/x.js", "", none⟩),
    .call ⟨.file, ⟨"a", "1", "y"⟩⟩, .go 1]

theorem rangeMoves_admits : Admits "https://c" rangeMoves where
  calls c hc := by
    have hc' : c = ⟨.file, ⟨"a", "1", "x"⟩⟩ ∨ c = ⟨.file, ⟨"a", "1", "y"⟩⟩ := by simpa [rangeMoves] using hc
    rcases hc' with rfl | rfl <;> exact ⟨by decide, by decide⟩
  answers n r hr _ := by
    obtain ⟨-, rfl⟩ : n = 0 ∧ r = ⟨200, "https://c/a@1.0.0/x.js", "", none⟩ := by simpa [rangeMoves] using hr
    exact ⟨⟨"a", "1.0.0", "x.js"⟩, by decide +kernel, by decide +kernel⟩

theorem Admits.of_append {url : String} {moves later : List Move} (h : Admits url (moves ++ later)) :
    Admits url moves :=
  ⟨fun c hc => h.calls c (List.mem_append_left _ hc), fun n r hr => h.answers n r (List.mem_append_left _ hr)⟩

/-- The other path is looked up under the version that the first one has brought. -/
theorem version_pinning_range : Admits "https://c" rangeMoves ∧
    ((empty "https://c").play rangeMoves).cache.version ⟨"a", "1", "y"⟩ = .exact ⟨"a", "1.0.0", "y"⟩ := by
  refine ⟨rangeMoves_admits, ?_⟩
  have hm : Admits "https://c" (rangeMoves.take 3 ++ rangeMoves.drop 3) := rangeMoves_admits
  have hout : (((empty "https://c").play (rangeMoves.take 3)).cache.outcome? 0).any
      (fun r => r.toOption.any (·.url == "https://c/a@1.0.0/x.js")) = true := by decide +kernel
  have hloc : (((empty "https://c").play (rangeMoves.take 3)).cache.downloads[0]?).map (·.location) =
      some ⟨"a", "1", "x"⟩ := by decide +kernel
  rw [Option.map_eq_some_iff] at hloc
  obtain ⟨d, hd, hl⟩ := hloc
  unfold Cache.outcome? at hout
  rw [hd, Option.bind_some] at hout
  rcases ho : d.outcome with _ | _ | f
  · exact absurd hout (by simp [ho])
  · exact absurd hout (by simp [ho, Except.toOption])
  have hu : f.url = "https://c/a@1.0.0/x.js" := by simpa [ho, Except.toOption] using hout
  have hpin := version_pinning "https://c" (rangeMoves.take 3) ⟨"a", "1", "x"⟩ hm.of_append
    ⟨by decide, by decide⟩ (by decide +kernel)
  obtain ⟨m, hmf, -, hlater⟩ := hpin.2.1 0 d f hd ⟨"x", by rw [urlOf_eq, hl]⟩ ho
  have hparse : parseUrl? (withFinalSlash "https://c") "https://c/a@1.0.0/x.js" = some ⟨"a", "1.0.0", "x.js"⟩ := by
    decide +kernel
  rw [hu, hparse] at hmf
  obtain rfl := Option.some.inj hmf
  exact (hlater (rangeMoves.drop 3) hm).1 "y"

end Pinning

end Session

end BareImports.Cdn
