import CardSort.Proofs.Job.Destinations
import CardSort.Proofs.Job.Distinct
import CardSort.Proofs.Layout.Validation

/-!
# Faults of the data leave no partial output

A job that sorts opens a sink when all records of the pass have been checked. Sums and the output
layout decode records again after that, and the checks cover all of it: so a pass that has opened
its sink fills it, and a run that fails does so between two sinks.

* `Job.OfCards` — keys, sum and output layout are as cards give them; `Job.ofCards_ofText`.
* `Job.check_eq_ok_iff`, `Job.check_of_mem_scan` — what is known of the records of a scan.
* `Job.validate_of_mem_fold` — **what sums make of checked records can be laid out**.
* `Job.fault_of_pass` — a sorting pass that opens its sink fills it.
* `Job.Fills` — a sink that holds all that is written for its target.
* `Job.run_fails_clean` — **the sinks before the failing pass are full, all others are empty**.
-/

set_option autoImplicit false

namespace CardSort

namespace Job

/-- The job is as cards give it: it has keys if it sorts, and its sum rule and its output layout,
if there are any, have been read from cards. -/
structure OfCards (job : Job) : Prop where
  keyed : job.mode = .sort → ∃ c, job.comparer = some c
  sum : ∀ rule, job.sum = some rule → ∃ text encoding, SumRule.ofCard text encoding = .ok rule
  outrec : ∀ layout, job.outrec = some layout →
    ∃ text encoding, Layout.ofCard text encoding = .ok layout

end Job

/-! ## Decks -/

namespace Deck

/-- The draft is as cards give it: there are keys if it sorts, and its sum rule and its output
layout, if there are any, have been read from cards. -/
structure Draft.OfCards (d : Draft) : Prop where
  keyed : ∀ mode comparer, d.keys = some (mode, comparer) → mode = .sort →
    ∃ c, comparer = some c
  sum : ∀ rule, d.sum = some rule → ∃ text encoding, SumRule.ofCard text encoding = .ok rule
  outrec : ∀ layout, d.outrec = some layout →
    ∃ text encoding, Layout.ofCard text encoding = .ok layout

theorem Statement.anchor_eq_ok_iff {α : Type} {s : Statement} {r : Except Fault α} {a : α} :
    s.anchor r = .ok a ↔ r = .ok a :=
  mapError_eq_ok_iff

theorem Draft.ofCards_empty : ({} : Draft).OfCards := by
  constructor
  · intro _ _ h
    cases h
  · intro _ h
    cases h
  · intro _ h
    cases h

theorem Draft.OfCards.option {d : Draft} (h : d.OfCards) (w : String) : (d.option w).OfCards := by
  unfold Draft.option
  split
  · exact ⟨h.keyed, h.sum, h.outrec⟩
  · exact ⟨h.keyed, h.sum, h.outrec⟩
  · exact ⟨h.keyed, h.sum, h.outrec⟩
  · exact h

theorem Draft.OfCards.options {d : Draft} (h : d.OfCards) (words : List String) :
    (words.foldl Draft.option d).OfCards := by
  induction words generalizing d with
  | nil => exact h
  | cons w ws ih => exact ih (h.option w)

theorem exists_of_modeOf_eq_sort {keyword : String} {comparer : Option Comparer}
    (h : modeOf keyword comparer = .sort) : ∃ c, comparer = some c := by
  cases comparer with
  | none => simp [modeOf] at h
  | some c => exact ⟨c, rfl⟩

/-- One more statement either reads keys, a sum or an output layout from its card, or leaves
them. -/
theorem Draft.OfCards.take {config : Config} {d d' : Draft} {s : Statement} (h : d.OfCards)
    (htake : d.take config s = .ok d') : d'.OfCards := by
  have hkeys : ∀ comparer, ({ d with keys := some (modeOf s.keyword comparer, comparer) } :
      Draft).OfCards := by
    intro comparer
    refine ⟨?_, h.sum, h.outrec⟩
    rintro _ _ ⟨⟩ hsort
    exact exists_of_modeOf_eq_sort hsort
  unfold Draft.take at htake
  split at htake
  case h_1 | h_2 =>
    obtain ⟨_, _, htake⟩ := bind_eq_ok_iff.1 htake
    obtain ⟨comparer, _, htake⟩ := bind_eq_ok_iff.1 htake
    cases htake
    exact hkeys comparer
  case h_6 =>
    obtain ⟨_, _, htake⟩ := bind_eq_ok_iff.1 htake
    obtain ⟨layout, hlayout, htake⟩ := bind_eq_ok_iff.1 htake
    cases htake
    refine ⟨h.keyed, h.sum, ?_⟩
    rintro _ ⟨⟩
    exact ⟨_, _, Statement.anchor_eq_ok_iff.1 hlayout⟩
  case h_7 =>
    obtain ⟨_, _, htake⟩ := bind_eq_ok_iff.1 htake
    obtain ⟨rule, hrule, htake⟩ := bind_eq_ok_iff.1 htake
    cases htake
    refine ⟨h.keyed, ?_, h.outrec⟩
    rintro _ ⟨⟩
    exact ⟨_, _, Statement.anchor_eq_ok_iff.1 hrule⟩
  case h_8 =>
    obtain ⟨ds, _, htake⟩ := bind_eq_ok_iff.1 htake
    cases htake
    exact ⟨h.keyed, h.sum, h.outrec⟩
  case h_9 =>
    cases htake
    exact h.options _
  case h_10 => cases htake
  all_goals
    obtain ⟨_, _, htake⟩ := bind_eq_ok_iff.1 htake
    obtain ⟨_, _, htake⟩ := bind_eq_ok_iff.1 htake
    cases htake
    exact ⟨h.keyed, h.sum, h.outrec⟩

theorem Draft.OfCards.foldlM {config : Config} {d d' : Draft} {statements : List String}
    (h : d.OfCards)
    (hfold : statements.foldlM (fun d s => d.take config (Statement.of s)) d = .ok d') :
    d'.OfCards := by
  induction statements generalizing d with
  | nil =>
    cases hfold
    exact h
  | cons s ss ih =>
    rw [List.foldlM_cons] at hfold
    obtain ⟨next, htake, hfold⟩ := bind_eq_ok_iff.1 hfold
    exact ih (h.take htake) hfold

theorem Draft.OfCards.order {d : Draft} (h : d.OfCards) (hsort : d.order.1 = .sort) :
    ∃ c, d.order.2 = some c := by
  unfold Draft.order at hsort ⊢
  split
  · simp_all
  · rename_i keys hkeys
    cases hcopy : d.copyOption with
    | true => simp [hkeys, hcopy] at hsort
    | false =>
      simp only [hkeys, hcopy, Bool.false_eq_true, if_false] at hsort ⊢
      exact h.keyed keys.1 keys.2 hkeys hsort

end Deck

namespace Job

/-- A job that has been built from a deck is as the cards of the deck give it. -/
theorem ofCards_ofText {text : String} {config : Config} {job : Job}
    (h : Job.ofText text config = .ok job) : job.OfCards := by
  obtain ⟨_, _, h⟩ := bind_eq_ok_iff.1 h
  obtain ⟨deck, hdeck, h⟩ := bind_eq_ok_iff.1 h
  obtain ⟨draft, hdraft, hpure⟩ := bind_eq_ok_iff.1 hdeck
  have hcards := Deck.Draft.ofCards_empty.foldlM hdraft
  cases h
  cases hpure
  exact ⟨hcards.order, hcards.sum, hcards.outrec⟩

variable {job : Job} {c : Comparer} {target : Target} {inputs : List Input} {host : Host}

/-! ## Checked records -/

theorem check_eq_ok_iff (hkeys : job.activeComparer = some c) {record : Bytes} :
    job.check record = .ok () ↔
      c.validate record = .ok () ∧ (∀ rule, job.sum = some rule → rule.validate record = .ok ()) ∧
        ∀ layout, job.outrec = some layout → layout.validate record = .ok () := by
  unfold check
  simp only [hkeys]
  cases hsum : job.sum with
  | none =>
    cases houtrec : job.outrec with
    | none => simp
    | some layout => simp [check_bind_eq_ok_iff]
  | some rule =>
    cases houtrec : job.outrec with
    | none => simp [check_bind_eq_ok_iff]
    | some layout => simp [check_bind_eq_ok_iff]

/-- Every record that goes on has passed the check. -/
theorem check_of_mem_scan {passFilter : Option Filter} {header : List Bytes} {scan : Scan}
    {out : Bytes} (h : job.scan passFilter inputs = .ok (header, scan))
    (hout : out ∈ scan.feed.records) : job.check out = .ok () := by
  obtain ⟨_, _, h⟩ := bind_eq_ok_iff.1 h
  cases h
  obtain ⟨r, -, hkept⟩ := mem_scanFrom hout
  exact (judge_eq_kept_iff.1 hkept).2.2.2

/-! ## After the sink has been opened -/

/-- The summed fields share no byte with each other, and every field edited by the output layout
is one of them or shares no byte with any. -/
def SumsApart (job : Job) : Prop :=
  ∀ fields, job.sum = some (.addFields fields) → fields.Pairwise Field.Disjoint ∧
    ∀ layout, job.outrec = some layout → layout.SumsApart fields

/-- **What sums make of checked records passes the check of the output layout**, and the sums
themselves do not fail. -/
theorem validate_of_mem_fold (hcards : job.OfCards) (hapart : job.SumsApart)
    (hkeys : job.activeComparer = some c) {records : List Bytes}
    (hchecked : ∀ r ∈ records, job.check r = .ok ()) :
    (job.foldFeed (.ofList records)).feed.fault = none ∧
      ∀ layout, job.outrec = some layout →
        ∀ out ∈ (job.foldFeed (.ofList records)).feed.records, layout.validate out = .ok () := by
  have hlayout : ∀ layout, job.outrec = some layout → ∀ r ∈ records,
      layout.validate r = .ok () := by
    intro layout houtrec r hr
    exact ((check_eq_ok_iff hkeys).1 (hchecked r hr)).2.2 layout houtrec
  cases hsum : job.sum with
  | none =>
    rw [foldFeed_of_no_sum hsum]
    exact ⟨rfl, hlayout⟩
  | some rule =>
    cases rule with
    | skipDuplicates =>
      rw [(foldFeed_skipDuplicates hkeys hsum records).1]
      refine ⟨rfl, fun layout houtrec out hout => ?_⟩
      exact hlayout layout houtrec out ((c.distinct_sublist records).subset hout)
    | addFields fields =>
      obtain ⟨text, encoding, hcard⟩ := hcards.sum _ hsum
      obtain ⟨hdisjoint, hedited⟩ := hapart fields hsum
      have hvalid : ∀ r ∈ records, (SumRule.addFields fields).validate r = .ok () :=
        fun r hr => ((check_eq_ok_iff hkeys).1 (hchecked r hr)).2.1 _ hsum
      obtain ⟨hfault, -, -, hflatten, hgroups⟩ := SumRule.fold_conserves c
        (SumRule.isNumeric_of_ofCard hcard) hdisjoint hvalid
      rw [foldFeed_of_sum hsum hkeys]
      refine ⟨hfault, fun layout houtrec out hout => ?_⟩
      obtain ⟨group, hgroup, habsorbs⟩ := exists_mem_of_forall₂ hgroups hout
      refine Layout.validate_of_absorbs habsorbs (hedited layout houtrec) ?_
      intro r hr
      refine hlayout layout houtrec r ?_
      rw [← hflatten]
      exact List.mem_flatten.2 ⟨group, hgroup, hr⟩

/-- A sink that lays out nothing by itself is filled with checked records. -/
theorem fault_of_drain_checked (hcards : job.OfCards) (hapart : job.SumsApart)
    (hkeys : job.activeComparer = some c) {records : List Bytes}
    (hchecked : ∀ r ∈ records, job.check r = .ok ()) (header : List Bytes) :
    (job.drain none header (.ofList records)).fault = none := by
  obtain ⟨hfault, hlayout⟩ := validate_of_mem_fold hcards hapart hkeys hchecked
  have hstep : ∀ r ∈ (job.foldFeed (.ofList records)).feed.records,
      ∃ out, job.layOutRecord none r = .ok out := by
    intro r hr
    rw [layOutRecord_none]
    cases houtrec : job.outrec with
    | none => exact ⟨r, rfl⟩
    | some layout =>
      obtain ⟨text, encoding, hcard⟩ := hcards.outrec layout houtrec
      exact (Layout.validate_eq_ok_iff (Layout.isNumeric_of_ofCard hcard)).1
        (hlayout layout houtrec r hr)
  obtain ⟨out, hout⟩ := exists_mapM_eq_ok hstep
  exact (Feed.complete_eq_ok_iff.1 (complete_layOut_iff.2 ⟨hfault, hout⟩)).1

/-- **A sorting pass that opens its sink fills it.** -/
theorem fault_of_pass (hcards : job.OfCards) (hapart : job.SumsApart) (hmode : job.mode = .sort)
    (hkeys : job.comparer = some c) (hlayout : passLayout target = none) {p : PassOutcome}
    (h : job.pass host target inputs = .ok p) : p.drained.fault = none := by
  have hactive : job.activeComparer = some c := by simp [activeComparer, hmode, hkeys]
  obtain ⟨header, scan, hscan, -, -, -, hdrained⟩ := sorted_of_pass hmode hactive h
  rw [hdrained, hlayout]
  refine fault_of_drain_checked hcards hapart hactive ?_ header
  intro r hr
  exact check_of_mem_scan hscan ((job.place_keyOrder host c inputs _).perm.mem_iff.1 hr)

/-! ## Runs that fail -/

/-- The bytes are all that the pass for the target writes: the header, and all of its data
records. -/
def Fills (job : Job) (host : Host) (inputs : List Input) (target : Target) (bytes : Bytes) :
    Prop :=
  ∃ header records, job.header inputs = .ok header ∧
    job.dataRecords host target inputs = .ok records ∧ bytes = job.framing.write (header ++ records)

theorem fills_of_pass {p : PassOutcome} (h : job.pass host target inputs = .ok p)
    (hfault : p.drained.fault = none) : job.Fills host inputs target p.drained.bytes := by
  obtain ⟨records, hrecords⟩ := exists_dataRecords h hfault
  obtain ⟨-, -, header, hheader, hbytes⟩ := drained_of_dataRecords h hrecords
  exact ⟨header, records, hheader, hrecords, hbytes⟩

/-- Passes none of which fails once its sink is open fail between two sinks. -/
theorem runPasses_fails {targets : List Target} {done : List Bytes} {stats : Stats}
    {fault : Fault}
    (hclean : ∀ target ∈ targets, ∀ p, job.pass host target inputs = .ok p →
      p.drained.fault = none)
    (h : (job.runPasses host (fun _ => inputs) done stats targets).result = .error fault) :
    ∃ before target after full, targets = before ++ target :: after ∧
      job.pass host target inputs = .error fault ∧
      List.Forall₂ (job.Fills host inputs) before full ∧
      (job.runPasses host (fun _ => inputs) done stats targets).sinks =
        full ++ List.replicate (after.length + 1) [] := by
  induction targets generalizing done stats with
  | nil => simp [runPasses] at h
  | cons target targets ih =>
    cases hpass : job.pass host target inputs with
    | error f =>
      simp only [runPasses, hpass] at h ⊢
      cases h
      refine ⟨[], target, targets, [], rfl, hpass, .nil, ?_⟩
      simp [List.replicate_succ]
    | ok p =>
      have hfault := hclean target List.mem_cons_self p hpass
      simp only [runPasses, hpass, hfault] at h ⊢
      obtain ⟨before, failing, after, full, hsplit, hfails, hfull, hsinks⟩ :=
        ih (fun t ht => hclean t (List.mem_cons_of_mem _ ht)) h
      refine ⟨target :: before, failing, after, p.drained.bytes :: full, ?_, hfails,
        .cons (fills_of_pass hpass hfault) hfull, ?_⟩
      · rw [hsplit]
        rfl
      · rw [hsinks]
        rfl

/-- **A run that fails leaves no partial output.** Let the job be as cards give it: it sorts, lays
out nothing for single destinations, and its summed fields are apart. If its run ends with a
fault, then it has failed its checks and nothing has been written, or it has failed in some pass:
then the sinks of the passes before are full, and the sink of that pass and those of all later
passes are empty, without even a header. -/
theorem run_fails_clean (hcards : job.OfCards) (hmode : job.mode = .sort)
    (hlayouts : ∀ d ∈ job.destinations, d.layout = none) (hapart : job.SumsApart) {sinks : Nat}
    {fault : Fault} (h : (job.run host inputs sinks).result = .error fault) :
    (job.precheck sinks = .error fault ∧
      (job.run host inputs sinks).sinks = List.replicate sinks []) ∨
    ∃ before target after full, job.targets = before ++ target :: after ∧
      job.pass host target inputs = .error fault ∧
      List.Forall₂ (job.Fills host inputs) before full ∧
      (job.run host inputs sinks).sinks = full ++ List.replicate (after.length + 1) [] := by
  obtain ⟨c, hkeys⟩ := hcards.keyed hmode
  simp only [run, runReading] at h ⊢
  cases hcheck : job.precheck sinks with
  | error f =>
    simp only [hcheck] at h ⊢
    cases h
    simp
  | ok _ =>
    simp only [hcheck] at h ⊢
    refine .inr (runPasses_fails ?_ h)
    intro target htarget p hp
    refine fault_of_pass hcards hapart hmode hkeys ?_ hp
    unfold targets at htarget
    split at htarget
    · cases List.mem_singleton.1 htarget
      rfl
    · obtain ⟨d, hd, rfl⟩ := List.mem_map.1 htarget
      exact hlayouts d hd

/-- A deck that sums the number in bytes 2 and 3 and writes it without leading zeros, first for
the records that do not begin with `b`, then for those that do. -/
def splitDeck : String :=
  "SORT FIELDS=(1,1,CH)
SUM FIELDS=(2,2,ZD)
OUTREC FIELDS=(1,1,2,2,ZD,EDIT=('II'))
OUTFIL OMIT=(1,1,CH,EQ,C'b')
OUTFIL INCLUDE=(1,1,CH,EQ,C'b')"

/-- The job of `splitDeck`, with one header record. It need not be stable. -/
def splitDeckJob : Job :=
  { config := { headerRecords := 1, stable := false }
    comparer := some ⟨[⟨⟨0, 1, .ch, .ascii⟩, .ascending⟩], .native⟩
    sum := some (.addFields [⟨1, 2, .zd, .ascii⟩])
    outrec := some ⟨[⟨none, .copy ⟨0, 1, .ch, .ascii⟩⟩, ⟨none, .edit ⟨1, 2, .zd, .ascii⟩
      ⟨⟨['I', 'I'], none, none⟩, none⟩⟩], .ascii⟩
    destinations := [
      { filter := some (.not
          (.compare ⟨.field ⟨0, 1, .ch, .ascii⟩, .eq, .text [0x62], .ascii⟩)) },
      { filter := some
          (.compare ⟨.field ⟨0, 1, .ch, .ascii⟩, .eq, .text [0x62], .ascii⟩) }] }

/-- The header `H` and the records `a05`, `b5z` and `a30`. -/
def splitDeckInputs : List Input :=
  [.present [0x48, 0x0A, 0x61, 0x30, 0x35, 0x0A, 0x62, 0x35, 0x7A, 0x0A, 0x61, 0x33, 0x30, 0x0A]]

/-- The number in `b5z` is a fault of the second pass. The first sink holds the header and `a35`,
whichever of its records comes first, and the second one is empty. -/
theorem splitDeckJob_fails_clean :
    let host : Host := { unstable := .reversing }
    Job.ofText splitDeck { headerRecords := 1, stable := false } = .ok splitDeckJob ∧
      (splitDeckJob.run host splitDeckInputs 2).sinks =
        [[0x48, 0x0A, 0x61, 0x33, 0x35, 0x0A], []] ∧
      ∃ fault, (splitDeckJob.run host splitDeckInputs 2).result = .error fault ∧
        ((splitDeckJob.precheck 2 = .error fault ∧
          (splitDeckJob.run host splitDeckInputs 2).sinks = List.replicate 2 []) ∨
        ∃ before target after full, splitDeckJob.targets = before ++ target :: after ∧
          splitDeckJob.pass host target splitDeckInputs = .error fault ∧
          List.Forall₂ (splitDeckJob.Fills host splitDeckInputs) before full ∧
          (splitDeckJob.run host splitDeckInputs 2).sinks =
            full ++ List.replicate (after.length + 1) []) := by
  intro host
  have hdeck : Job.ofText splitDeck { headerRecords := 1, stable := false } = .ok splitDeckJob := by
    decide +kernel
  have hapart : splitDeckJob.SumsApart := by
    rintro _ ⟨⟩
    refine ⟨List.pairwise_singleton _ _, ?_⟩
    rintro _ ⟨⟩ f hf
    exact .inl hf
  have hfails : (splitDeckJob.run host splitDeckInputs 2).result =
      .error (.invalidNumber 2 2 (.codec .zd (.badDigit 10 0x7A))) := by
    cbv
  exact ⟨hdeck, by cbv, _, hfails,
    run_fails_clean (ofCards_ofText hdeck) rfl (by decide) hapart hfails⟩

end Job

end CardSort
