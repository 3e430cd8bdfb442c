import BareImports.Proofs.Cdn.Locating

/-!
# How far a canonical location depends on what was asked for before

* `LocatedAs S pkg range v` : a range leads where one exact version leads, and its final URLs name that version;
* `freshLocation S l` : the result on an empty cache, `gather_location`;
* `Finds S c l r` : the results that a call may have instead; `finds_of_answers`;
* `location_transparent` : a call has one of them, whatever was asked for before;
* `mixed_location_depends` : a site on which each of the conditions is missed.
-/

namespace BareImports.Cdn

open Build (Site)
open Location

/-- A range leads where an exact version leads, which is the one that its final URLs name. -/
structure LocatedAs (S : Site) (pkg range v : String) : Prop where
  /-- The version is exact. -/
  exact : Version.isExact v = true
  /-- Every path leads where that of the version leads. -/
  locates : ∀ path, finalLocation S ⟨pkg, range, path⟩ = finalLocation S ⟨pkg, v, path⟩
  /-- Final URLs name the version. -/
  names : ∀ path k, finalLocation S ⟨pkg, range, path⟩ = .ok k → k.version = v

/-- What a call for a location comes to on an empty cache. -/
def freshLocation (S : Site) (l : Location) : Except Failure Location :=
  if Version.isExact l.version = true ∧ FileName.extension l.path.toList ≠ [] then .ok l else finalLocation S l

/-- The results that a call for a location may have: the one on an empty cache, or what is asked for under the version that
its range has been resolved to, if it has an extension. That version is the one that the result on an empty cache names. -/
inductive Finds (S : Site) (c : Cache) (l : Location) : Except Failure Location → Prop
  /-- The result on an empty cache. -/
  | fresh : Finds S c l (freshLocation S l)
  /-- The location under the version of its range. -/
  | pinned {v : String} (hx : Version.isExact l.version = false) (hext : FileName.extension l.path.toList ≠ [])
      (hv : c.version l = .exact { l with version := v }) (hsame : ∀ k, freshLocation S l = .ok k → k.version = v) :
      Finds S c l (.ok { l with version := v })

namespace Session

open Cache

variable {S : Site} {s : Session} {l m : Location}

/-! ## An empty cache -/

theorem gather_location {url : String} (hb : S.base = withFinalSlash url) (l : Location) :
    (gather (m := Id) S.cdn (.empty url) [⟨.location, l⟩]).2 = [⟨.location, freshLocation S l⟩] := by
  by_cases hquick : Version.isExact l.version = true ∧ FileName.extension l.path.toList ≠ []
  · have hdone : (asking (.empty url) .location l (.turn l)).sweep = ⟨.empty url, [⟨⟨.location, l⟩, .done (.ok l)⟩]⟩ := by
      rw [sweep_asking, resume_of_extension hquick.1 hquick.2]
    have hrun : run (m := Id) S.cdn 8 (asking (.empty url) .location l (.turn l)) =
        ⟨.empty url, [⟨⟨.location, l⟩, .done (.ok l)⟩]⟩ := by
      rw [run_succ, hdone]
      rfl
    show (run (m := Id) S.cdn 8 (asking (.empty url) .location l (.turn l))).slots.filterMap Slot.result? = _
    rw [hrun, freshLocation, if_pos hquick]
    rfl
  · have hturn : (Cache.empty url).resume .location (.turn l) = (Cache.empty url).request .location l := by
      show (Cache.empty url).start .location l = _
      have hversion : (Cache.empty url).version l = if Version.isExact l.version then .exact l else .unknown := rfl
      unfold Cache.start
      rw [if_pos (by rfl), hversion]
      by_cases hx : Version.isExact l.version = true
      · have hnone : Goal.location.immediate? l = none := by
          unfold Goal.immediate?
          simp [not_and.1 hquick hx]
        rw [if_pos hx]
        dsimp only
        unfold Cache.settle
        rw [hnone]
      · rw [if_neg hx]
    rw [gather_request S url hturn, freshLocation, if_neg hquick]
    dsimp only
    rw [show ((Cache.empty url).startDownload l (Version.isExact l.version)).base = S.base from hb.symm,
      judge_site (S := S) hb.symm, finish_judged]

/-! ## Any cache -/

section Ranges

variable {v : String} (hr : s.cache.Reads S) (hs : s.Sound) (hx : Version.isExact l.version = false)
  (hl : LocatedAs S l.pkg l.version v)

include hr hs hx hl

/-- A range is resolved to the version that it is located as. -/
theorem resolves_located (h : s.cache.Resolves l m) :
    m = { l with version := v } ∧ s.cache.version l = .exact { l with version := v } := by
  cases h with
  | exact hexact => exact absurd hexact (by simp [hx])
  | @pinned n w _ hn hw =>
    have hversion := (hs.version_eq hx hn hw).2 l.path
    obtain ⟨f, k, hf, hk, rfl⟩ := versionOf?_eq_some hw
    obtain ⟨d, hd, hfetch⟩ := hr.outcome? hf
    obtain ⟨d', hd', -, hrange⟩ := hn
    obtain rfl : d = d' := Option.some.inj (hd.symm.trans hd')
    rw [hr.base] at hk
    rw [fetch_of_pkgVersion hrange] at hfetch
    obtain rfl : k.version = v := hl.names _ k (finalLocation_eq_ok.2 ⟨f, hfetch, hk⟩)
    exact ⟨rfl, hversion⟩

/-- A location is looked up as it is, or under the version that its range is located as. -/
theorem reaches_located (h : s.cache.Reaches l m) :
    m = l ∨ m = { l with version := v } ∧ s.cache.version l = .exact { l with version := v } := by
  induction h with
  | refl => exact Or.inl rfl
  | tail _ hstep ih =>
    rcases ih with rfl | ⟨rfl, hversion⟩
    · exact Or.inr (resolves_located hr hs hx hl hstep)
    · cases hstep with
      | exact _ => exact Or.inr ⟨rfl, hversion⟩
      | pinned hno _ _ => exact absurd hl.exact (by simp [hno])

end Ranges

/-- What is served for a key leads where the site leads. -/
theorem finish_served (hS : Settles S) (hr : s.cache.Reads S) (hs : s.Sound) {r : Except Failure Fetched}
    (h : s.cache.Served m.key r) : Goal.location.finish S.base r = finalLocation S m := by
  rcases hr.served hs.cache h with hsame | ⟨k, j, hj, hkey, hsame⟩
  · exact hsame
  · rw [hsame, ← finalLocation_of_key hkey, hS j k hj]

/-- The results that a call may have are those that its location accounts for. -/
theorem finds_of_answers (hS : Settles S) (hr : s.cache.Reads S) (hs : s.Sound)
    (hl : Version.isExact l.version = false → ∃ v, LocatedAs S l.pkg l.version v)
    (hslow : Version.isExact l.version = true → FileName.extension l.path.toList = [])
    {r : Except Failure (Goal.Result .location)} (h : s.cache.Answers l .location r) : Finds S s.cache l r := by
  have hfresh : freshLocation S l = finalLocation S l := by
    rw [freshLocation, if_neg fun hboth => hboth.2 (hslow hboth.1)]
  cases hx : Version.isExact l.version with
  | true =>
    cases h with
    | served hm hserved =>
      obtain rfl := hm.eq_of_isExact hx
      rw [hr.base, finish_served hS hr hs hserved, ← hfresh]
      exact .fresh
    | immediate hm hm' ha =>
      obtain rfl := hm.eq_of_isExact hx
      cases hm' with
      | exact _ => exact absurd (hslow hx) (immediate?_eq_some ha).1
      | pinned hno _ _ => exact absurd hx (by simp [hno])
  | false =>
    obtain ⟨v, hv⟩ := hl hx
    cases h with
    | @served m x hm hserved =>
      have hsame : finalLocation S m = finalLocation S l := by
        rcases reaches_located hr hs hx hv hm with rfl | ⟨rfl, -⟩
        · rfl
        · exact (hv.locates l.path).symm
      rw [hr.base, finish_served hS hr hs hserved, hsame, ← hfresh]
      exact .fresh
    | @immediate m m' a hm hm' ha =>
      obtain ⟨hext, rfl⟩ := immediate?_eq_some ha
      have hpinned : a = { l with version := v } ∧ s.cache.version l = .exact { l with version := v } := by
        rcases reaches_located hr hs hx hv hm with rfl | ⟨rfl, hversion⟩
        · exact resolves_located hr hs hx hv hm'
        · cases hm' with
          | exact _ => exact ⟨rfl, hversion⟩
          | pinned hno _ _ => exact absurd hv.exact (by simp [hno])
      obtain ⟨rfl, hversion⟩ := hpinned
      exact .pinned hx hext hversion fun k hk => hv.names l.path k (hfresh.symm.trans hk)

/-- Let the location that a final URL names be its own final location, and let the range of `l`, if it is inexact, lead
where one exact version leads, which its final URLs name. Whatever calls were made, in whatever order they went on and were
answered, a call for the location `l` that has a result has the one that it has on an empty cache; only if `l` is inexact
and has an extension, it may have `l` under the version that its range has been resolved to instead. And every such call
comes to a result. -/
theorem location_transparent (S : Site) (url : String) (moves : List Move) (l : Location)
    (hb : S.base = withFinalSlash url) (hS : Settles S) (hanswers : AnsweredBy S (.empty url) moves)
    (hl : Version.isExact l.version = false → ∃ v, LocatedAs S l.pkg l.version v) :
    (gather (m := Id) S.cdn (.empty url) [⟨.location, l⟩]).2 = [⟨.location, freshLocation S l⟩] ∧
      (∀ slot ∈ ((empty url).play moves).slots, slot.call = ⟨.location, l⟩ → ∀ x, slot.result? = some x →
        ∃ r, x = ⟨.location, r⟩ ∧ Finds S ((empty url).play moves).cache l r) ∧
      ∃ n, let s := run (m := Id) S.cdn n (((empty url).play moves).step (.call ⟨.location, l⟩))
        s.slots.map Slot.call = ((empty url).play moves).slots.map Slot.call ++ [⟨.location, l⟩] ∧
        ∀ slot ∈ s.slots, slot.call = ⟨.location, l⟩ →
          ∃ r, slot.result? = some ⟨.location, r⟩ ∧ Finds S s.cache l r := by
  -- the results after any moves that the site answers
  have hresults : ∀ moves, AnsweredBy S (.empty url) moves → ∀ slot ∈ ((empty url).play moves).slots,
      slot.call = ⟨.location, l⟩ → ∀ x, slot.result? = some x →
      ∃ r, x = ⟨.location, r⟩ ∧ Finds S ((empty url).play moves).cache l r := by
    intro moves hanswers slot hslot hcall x hx
    have hs := sound_play url moves
    have hstands := hs.stands slot hslot
    have hprompt := prompt_play url moves slot hslot l hcall
    obtain ⟨call, status⟩ := slot
    obtain rfl : call = ⟨.location, l⟩ := hcall
    cases status with
    | waiting w => exact absurd hx (by simp [Slot.result?])
    | done r =>
      refine ⟨r, (Option.some.inj hx).symm, ?_⟩
      by_cases hquick : Version.isExact l.version = true ∧ FileName.extension l.path.toList ≠ []
      · have hr : r = freshLocation S l := by
          rw [freshLocation, if_pos hquick]
          rcases hprompt hquick.1 hquick.2 with hat | hat
          · exact absurd hat (by simp)
          · simpa using hat
        rw [hr]
        exact .fresh
      · exact finds_of_answers hS (reads_play hb hanswers) hs hl
          (fun hx => by_contra fun hext => hquick ⟨hx, hext⟩) hstands
  refine ⟨gather_location hb l, hresults moves hanswers, ?_⟩
  obtain ⟨n, rounds, hrun, hrounds, hcalls, hdone⟩ :=
    exists_rounds S ((sound_play url moves).step (.call ⟨.location, l⟩))
  have hplay : (empty url).play (moves ++ .call ⟨.location, l⟩ :: rounds) =
      ((((empty url).play moves).step (.call ⟨.location, l⟩))).play rounds := play_append _ _ _
  have hrounds := hresults (moves ++ .call ⟨.location, l⟩ :: rounds) (hanswers.append (answeredBy_call hrounds))
  rw [hplay] at hrounds
  refine ⟨n, ?_⟩
  dsimp only
  rw [hrun]
  refine ⟨(calls_play rounds hcalls).trans List.map_append, fun slot hslot hcall => ?_⟩
  obtain ⟨x, hx⟩ := isDone_iff.1 hdone slot hslot
  obtain ⟨r, rfl, hr⟩ := hrounds slot hslot hcall x hx
  exact ⟨r, hx, hr⟩

theorem settles_ranged : Settles ranged := settles_serving (by decide +kernel)

/-- A call for a missing file of a range, after a file of the range was fetched. -/
def missingMoves : List Move :=
  [.call ⟨.file, ⟨"a", "1", "x.js"⟩⟩, .go 0, .answer 0 (ranged.cdn "https://c/a@1/x.js"),
    .call ⟨.location, ⟨"a", "1", "y.js"⟩⟩, .go 1]

/-- The call has the path that it asked for under the version of the range. -/
theorem location_transparent_ranged : AnsweredBy ranged (.empty "https://c") missingMoves ∧
    Finds ranged ((empty "https://c").play missingMoves).cache ⟨"a", "1", "y.js"⟩ (.ok ⟨"a", "1.0.0", "y.js"⟩) := by
  have hanswers : AnsweredBy ranged (.empty "https://c") missingMoves :=
    answeredBy_call <| answeredBy_go <| answeredBy_answer (by decide +kernel) <| answeredBy_call <| answeredBy_go trivial
  have hlocated : LocatedAs ranged "a" "1" "1.0.0" := by
    refine ⟨servedAs_ranged.exact, fun path => ?_, fun path k hk => ?_⟩
    · unfold finalLocation
      rw [servedAs_ranged.fetch]
    · obtain ⟨f, hf, hk⟩ := finalLocation_eq_ok.1 hk
      exact servedAs_ranged.names path f k hf hk
  obtain ⟨-, hresults, -⟩ := location_transparent ranged "https://c" missingMoves ⟨"a", "1", "y.js"⟩ (by decide +kernel)
    settles_ranged hanswers fun _ => ⟨_, hlocated⟩
  let slot : Slot := ⟨⟨.location, ⟨"a", "1", "y.js"⟩⟩, .done (.ok ⟨"a", "1.0.0", "y.js"⟩)⟩
  have hslot : slot ∈ ((empty "https://c").play missingMoves).slots :=
    List.mem_of_getElem? (show ((empty "https://c").play missingMoves).slots[1]? = _ by rfl)
  obtain ⟨r, hr, hfinds⟩ := hresults slot hslot rfl _ rfl
  obtain rfl := eq_of_heq (Reply.mk.inj hr).2
  exact ⟨hanswers, hfinds⟩

/-! ## What is missed without the conditions -/

/-- Of `a` a range leads to a version that has one script; of `b` a range is answered like `1.0.0`, whose script leads to
`2.0.0`, which has one more file; of `c` a file leads to another one that is missing. -/
def mixed : Site := serving
  [(⟨"a", "1", "x.js"⟩, ⟨200, "https://c/a@1.0.0/x.js", "A", none⟩),
    (⟨"a", "1.0.0", "x.js"⟩, ⟨200, "https://c/a@1.0.0/x.js", "A", none⟩),
    (⟨"b", "1", "x.js"⟩, ⟨200, "https://c/b@2.0.0/x.js", "B", none⟩),
    (⟨"b", "1.0.0", "x.js"⟩, ⟨200, "https://c/b@2.0.0/x.js", "B", none⟩),
    (⟨"b", "2.0.0", "x.js"⟩, ⟨200, "https://c/b@2.0.0/x.js", "B", none⟩),
    (⟨"b", "2.0.0", "y"⟩, ⟨200, "https://c/b@2.0.0/y", "Y", none⟩),
    (⟨"c", "1.0.0", "x"⟩, ⟨200, "https://c/c@1.0.0/y", "C", none⟩)]

theorem cdn_mixed {pkg range : String} (hpkg : IsPackage pkg) (hrange : '/' ∉ range.toList)
    (hx : Version.isExact range = false) : ∃ v, Version.isExact v = true ∧ ∀ path,
      mixed.cdn (mixed.base ++ (⟨pkg, range, path⟩ : Location).key) =
        mixed.cdn (mixed.base ++ (⟨pkg, v, path⟩ : Location).key) := by
  unfold mixed
  rw [show (serving _).base = "https://c/" from rfl]
  refine serving_ranges (fun row hrow => ?_) (v := "1.0.0") (w := "9.0.0") (by decide +kernel) (by decide +kernel)
    (by decide +kernel) (by decide +kernel) hpkg hrange hx
  simp only [List.mem_cons, List.not_mem_nil, or_false] at hrow
  rcases hrow with rfl | rfl | rfl | rfl | rfl | rfl | rfl <;> exact ⟨by decide, by decide⟩

/-- After some moves a call for a location has another result than on an empty cache. -/
def Depends (S : Site) (url : String) (moves : List Move) (l : Location) : Prop :=
  AnsweredBy S (.empty url) moves ∧ ∃ slot ∈ ((empty url).play moves).slots, slot.call = ⟨.location, l⟩ ∧
    ∃ x y, slot.result? = some x ∧ (gather (m := Id) S.cdn (.empty url) [⟨.location, l⟩]).2 = [y] ∧ x ≠ y

/-- The second call of two has a location as its result although it fails on an empty cache. -/
theorem depends_of_second {S : Site} {url : String} {moves : List Move} {l k : Location} (hb : S.base = withFinalSlash url)
    (hanswers : AnsweredBy S (.empty url) moves)
    (hsecond : ((empty url).play moves).slots[1]? = some ⟨⟨.location, l⟩, .done (.ok k)⟩)
    (hfails : (freshLocation S l).toBool = false) : Depends S url moves l := by
  refine ⟨hanswers, _, List.mem_of_getElem? hsecond, rfl, _, _, rfl, gather_location hb l, fun hsame => ?_⟩
  rw [← eq_of_heq (Reply.mk.inj hsame).2] at hfails
  exact absurd hfails (by simp [Except.toBool])

/-- Every range is answered like an exact version. Yet the result depends on earlier calls for a missing file of a range
that was resolved, for one of a range whose final URLs name another version than the one that it is answered like, and for
a missing file that another one has led to. -/
theorem mixed_location_depends :
    (∀ pkg range : String, IsPackage pkg → '/' ∉ range.toList → Version.isExact range = false →
      ∃ v, Version.isExact v = true ∧ ∀ path, mixed.cdn (mixed.base ++ (⟨pkg, range, path⟩ : Location).key) =
        mixed.cdn (mixed.base ++ (⟨pkg, v, path⟩ : Location).key)) ∧
    Depends mixed "https://c" [.call ⟨.file, ⟨"a", "1", "x.js"⟩⟩, .go 0, .answer 0 (mixed.cdn "https://c/a@1/x.js"),
      .call ⟨.location, ⟨"a", "1", "y.js"⟩⟩, .go 1] ⟨"a", "1", "y.js"⟩ ∧
    Depends mixed "https://c" [.call ⟨.file, ⟨"b", "1", "x.js"⟩⟩, .go 0, .answer 0 (mixed.cdn "https://c/b@1/x.js"),
      .call ⟨.location, ⟨"b", "1", "y"⟩⟩, .go 1, .answer 1 (mixed.cdn "https://c/b@2.0.0/y"), .go 1] ⟨"b", "1", "y"⟩ ∧
    Depends mixed "https://c" [.call ⟨.file, ⟨"c", "1.0.0", "x"⟩⟩, .go 0, .answer 0 (mixed.cdn "https://c/c@1.0.0/x"),
      .call ⟨.location, ⟨"c", "1.0.0", "y"⟩⟩, .go 1] ⟨"c", "1.0.0", "y"⟩ := by
  have hb : mixed.base = withFinalSlash "https://c" := by decide +kernel
  refine ⟨fun pkg range hpkg hrange hx => cdn_mixed hpkg hrange hx, ?_, ?_, ?_⟩
  · refine depends_of_second (k := ⟨"a", "1.0.0", "y.js"⟩) hb ?_ (by rfl) (by decide +kernel)
    exact answeredBy_call <| answeredBy_go <| answeredBy_answer (by decide +kernel) <| answeredBy_call <|
      answeredBy_go trivial
  · refine depends_of_second (k := ⟨"b", "2.0.0", "y"⟩) hb ?_ (by rfl) (by decide +kernel)
    exact answeredBy_call <| answeredBy_go <| answeredBy_answer (by decide +kernel) <| answeredBy_call <| answeredBy_go <|
      answeredBy_answer (by decide +kernel) <| answeredBy_go trivial
  · refine depends_of_second (k := ⟨"c", "1.0.0", "y"⟩) hb ?_ (by rfl) (by decide +kernel)
    exact answeredBy_call <| answeredBy_go <| answeredBy_answer (by decide +kernel) <| answeredBy_call <|
      answeredBy_go trivial

end Session

end BareImports.Cdn
