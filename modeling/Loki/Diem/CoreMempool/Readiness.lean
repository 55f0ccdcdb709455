import Loki.Diem.CoreMempool.Mempool

/-!
# Which transactions are ready

The transactions of an account from its cached number up to the first gap should be in the priority
index and in the timeline, and the others in the parking lot.  A collection of expired
transactions parks those that follow without taking back their state `Ready`, and they never enter
the timeline again.
-/

namespace Loki.Diem.CoreMempool

open Loki.Foundation Option TtlCache Prod Nat Std.ExtTreeMap
open MempoolTransaction (isReady)

namespace TransactionStore

variable {store store' : TransactionStore} {address : AccountAddress} {s : Nat}
  {txn : MempoolTransaction} {other : AccountAddress} {current : Nat}

/-- All numbers from `s` up to this one are stored. -/
def InRun (store : TransactionStore) (address : AccountAddress) (s number : Nat) : Prop :=
  s ≤ number ∧ ∀ m, s ≤ m → m ≤ number → ∃ txn, store.find (address, m) = some txn

variable (store)

variable (pointer : TxnPointer)

def InPriority : Prop :=
  ∃ key ∈ store.priorityIndex, key.pointer = pointer

def InTimeline : Prop :=
  ∃ id : Nat, store.timelineIndex.timeline[id]? = some pointer

def Announced (txn : MempoolTransaction) : Prop :=
  ∃ id : Nat, txn.timelineState = .ready id ∧
    store.timelineIndex.timeline[id]? = some pointer

variable {store}

/-- The transactions of an account whose current number is `s` are where they should be. -/
def Settled (store : TransactionStore) (address : AccountAddress) (s : Nat) : Prop :=
  ∀ number txn, store.find (address, number) = some txn →
    (store.InRun address s number →
      store.InPriority (address, number) ∧ store.Announced (address, number) txn ∧
        ¬ store.parkingLotIndex.Parks (address, number)) ∧
    (¬ store.InRun address s number →
      ¬ store.InPriority (address, number) ∧ txn.timelineState = .notReady ∧
        store.parkingLotIndex.Parks (address, number))

theorem settled_of_empty (h : ∀ number, store.find (address, number) = none) :
    store.Settled address s := by
  intro number _ htxn
  rw [h number] at htxn
  cases htxn

theorem Drops.inPriority {D F pointer} (h : Drops store store' D F)
    (hin : store'.InPriority pointer) : store.InPriority pointer := by
  obtain ⟨key, hkey, hpointer⟩ := hin
  exact ⟨key, ((h.holds (.priority key)).mp hkey).1.1, hpointer⟩

theorem Settled.drops (h : store.Settled address s) {D F} (hdrops : Drops store store' D F)
    (hrun : ∀ number, store.InRun address s number → ¬ D (address, number) →
      (∀ m, s ≤ m → m ≤ number → ¬ D (address, m)) ∧ ¬ F (address, number)) :
    store'.Settled address s := by
  intro number txn htxn
  obtain ⟨hold, hD⟩ := hdrops.find_eq_some.mp htxn
  have hinRun : store'.InRun address s number ↔ store.InRun address s number := by
    constructor
    · rintro ⟨hle, hall⟩
      refine ⟨hle, fun m hm hmn => ?_⟩
      obtain ⟨found, hfound⟩ := hall m hm hmn
      exact ⟨found, (hdrops.find_eq_some.mp hfound).1⟩
    · intro hin
      refine ⟨hin.1, fun m hm hmn => ?_⟩
      rw [hdrops.find_kept _ ((hrun number hin hD).1 m hm hmn)]
      exact hin.2 m hm hmn
  rw [hinRun]
  constructor
  · intro hin
    obtain ⟨⟨key, hkey, hpointer⟩, ⟨id, hid, hentry⟩, hparks⟩ := (h number txn hold).1 hin
    have hF := (hrun number hin hD).2
    refine ⟨⟨key, ?_, hpointer⟩, ⟨id, hid, ?_⟩, ?_⟩
    · rw [← hpointer] at hD hF
      exact (hdrops.holds (.priority key)).mpr ⟨⟨hkey, hF⟩, hD⟩
    · exact (hdrops.holds (.timeline id _)).mpr ⟨⟨hentry, hF⟩, hD⟩
    · intro hparks'
      rcases ((hdrops.holds (.parked _)).mp hparks').1 with hparks' | hF'
      · exact hparks hparks'
      · exact hF hF'
  · intro hout
    obtain ⟨hpriority, hstate, hparks⟩ := (h number txn hold).2 hout
    refine ⟨fun hin => hpriority (hdrops.inPriority hin), hstate, ?_⟩
    exact (hdrops.holds (.parked _)).mpr ⟨.inl hparks, hD⟩

/-- What is taken out is parked or below the number of the account. -/
theorem Settled.drops_parked (h : store.Settled address s) {D}
    (hdrops : Drops store store' D fun _ => False) (hD : ∀ number, D (address, number) →
      store.parkingLotIndex.Parks (address, number) ∨ number < s) : store'.Settled address s := by
  refine h.drops hdrops fun number hin _ => ⟨fun m hm hmn hdropped => ?_, not_false⟩
  rcases hD m hdropped with hparks | hlt
  · obtain ⟨txn, htxn⟩ := hin.2 m hm hmn
    exact ((h m txn htxn).1 ⟨hm, fun k hk hkm => hin.2 k hk (hkm.trans hmn)⟩).2.2 hparks
  · omega

theorem Drops.announced {D pointer} (h : Drops store store' D fun _ => False) (hD : ¬ D pointer)
    (hannounced : store.Announced pointer txn) : store'.Announced pointer txn := by
  obtain ⟨id, hid, hentry⟩ := hannounced
  exact ⟨id, hid, (h.holds (.timeline id _)).mpr ⟨⟨hentry, not_false⟩, hD⟩⟩

structure Keeps (store store' : TransactionStore) (address : AccountAddress) : Prop where
  find_eq : ∀ number, store'.find (address, number) = store.find (address, number)
  priority : ∀ key, key.address = address →
    (key ∈ store'.priorityIndex ↔ key ∈ store.priorityIndex)
  timeline : ∀ (id : Nat) (number : Nat),
    store.timelineIndex.timeline[id]? = some (address, number) →
    store'.timelineIndex.timeline[id]? = some (address, number)
  parks : ∀ number, store'.parkingLotIndex.Parks (address, number) ↔
    store.parkingLotIndex.Parks (address, number)

theorem Settled.keeps (h : store.Settled address s) (hkeeps : Keeps store store' address) :
    store'.Settled address s := by
  have hpriority number :
      store'.InPriority (address, number) ↔ store.InPriority (address, number) := by
    refine exists_congr fun key => ?_
    constructor
    · rintro ⟨hkey, hpointer⟩
      exact ⟨(hkeeps.priority key (congrArg fst hpointer)).mp hkey, hpointer⟩
    · rintro ⟨hkey, hpointer⟩
      exact ⟨(hkeeps.priority key (congrArg fst hpointer)).mpr hkey, hpointer⟩
  intro number txn htxn
  rw [hkeeps.find_eq] at htxn
  simp only [InRun, hkeeps.find_eq, hpriority, hkeeps.parks]
  refine ⟨fun hin => ?_, (h number txn htxn).2⟩
  obtain ⟨hpriority, ⟨id, hid, hentry⟩, hparks⟩ := (h number txn htxn).1 hin
  exact ⟨hpriority, ⟨id, hid, hkeeps.timeline id number hentry⟩, hparks⟩

theorem keeps_put (hne : txn.getSender ≠ address) : Keeps store (store.put txn) address where
  find_eq number := by
    rw [find_put, if_neg]
    intro heq
    exact hne (congrArg fst heq)
  priority _ _ := Iff.rfl
  timeline _ _ hentry := hentry
  parks _ := Iff.rfl

theorem ProcessesReady.keeps {first stop} (hne : other ≠ address)
    (h : ProcessesReady store store' other first stop) : Keeps store store' address where
  find_eq number := h.find_kept _ fun hrange => hne hrange.1.symm
  priority key haddress := h.priority_kept key fun hrange => hne (hrange.1.symm.trans haddress)
  timeline id number := h.timeline id _
  parks number := by
    rw [h.parks]
    have hout : ¬ InRange other first stop (address, number) := fun hrange => hne hrange.1.symm
    simp [hout, Ne.symm hne]

/-! ## Promotion settles an account -/

def Ripe (store : TransactionStore) (address : AccountAddress) (s : Nat) : Prop :=
  ∀ number txn, store.find (address, number) = some txn → s ≤ number ∧
    (txn.timelineState = .notReady ∨ store.Announced (address, number) txn) ∧
    (¬ store.InRun address s number →
      ¬ store.InPriority (address, number) ∧ txn.timelineState = .notReady)

theorem Ripe.settled (h : store.Ripe address s) {stop}
    (hready : ProcessesReady store store' address s stop) : store'.Settled address s := by
  have hstored' {m} (hge : s ≤ m) (hlt : m < stop) :
      ∃ txn, store'.find (address, m) = some txn := by
    obtain ⟨-, txn, -, htxn, -⟩ := hready.find_promoted (address, m) ⟨rfl, hge, hlt⟩
    exact ⟨txn, htxn⟩
  have hgap : store'.find (address, stop) = none := by
    rw [hready.find_kept _ fun hrange => lt_irrefl _ hrange.2.2]
    exact hready.gap
  have hinRun number : store'.InRun address s number ↔ s ≤ number ∧ number < stop := by
    constructor
    · rintro ⟨hge, hall⟩
      refine ⟨hge, Nat.lt_of_not_le fun hle => ?_⟩
      obtain ⟨txn, htxn⟩ := hall stop hready.first_le hle
      rw [hgap] at htxn
      cases htxn
    · rintro ⟨hge, hlt⟩
      exact ⟨hge, fun m hm _ => hstored' hm (by omega)⟩
  intro number txn htxn
  rw [hinRun]
  constructor
  · rintro ⟨hge, hlt⟩
    have hrange : InRange address s stop (address, number) := ⟨rfl, hge, hlt⟩
    refine ⟨hready.priority_promoted _ hrange, ?_, ?_⟩
    · obtain ⟨_, _, hold, hnew, hcases⟩ := hready.find_promoted _ hrange
      obtain rfl := some.inj (htxn.symm.trans hnew)
      rcases hcases with ⟨hstate, rfl⟩ | ⟨-, hannounced⟩
      · obtain ⟨-, hready' | ⟨id, hid, hentry⟩, -⟩ := h number txn hold
        · exact absurd hready' hstate
        · exact ⟨id, hid, hready.timeline id _ hentry⟩
      · exact hannounced
    · rw [hready.parks]
      rintro (⟨-, hout⟩ | ⟨-, hgt, -⟩)
      · exact hout hrange
      · exact lt_asymm hlt hgt
  · intro hout
    have hrange : ¬ InRange address s stop (address, number) := fun hrange => hout hrange.2
    have hold : store.find (address, number) = some txn := by rwa [← hready.find_kept _ hrange]
    obtain ⟨hge, -, hnot⟩ := h number txn hold
    have hlt : stop < number := by
      by_contra hle
      have hne : number ≠ stop := by
        rintro rfl
        rw [hgap] at htxn
        cases htxn
      exact hout ⟨hge, by omega⟩
    have hnotRun : ¬ store.InRun address s number := by
      rintro ⟨-, hall⟩
      obtain ⟨_, hfound⟩ := hall stop hready.first_le (le_of_lt hlt)
      rw [hready.gap] at hfound
      cases hfound
    obtain ⟨hpriority, hstate⟩ := hnot hnotRun
    refine ⟨?_, hstate, ?_⟩
    · rintro ⟨key, hkey, hpointer⟩
      exact hpriority ⟨key, (hready.priority_kept key (hpointer ▸ hrange)).mp hkey, hpointer⟩
    · rw [hready.parks]
      exact .inr ⟨rfl, hlt, txn, hold, by simp [isReady, hstate]⟩

/-- What the account keeps is as it was, and what is new to it waits. -/
theorem Settled.ripe (h : store.Settled address s) {next} (hle : s ≤ next)
    (hstored : ∀ number txn, store'.find (address, number) = some txn → next ≤ number ∧
      (store.find (address, number) = some txn ∧
          (store.Announced (address, number) txn → store'.Announced (address, number) txn) ∨
        txn.timelineState = .notReady ∧ ¬ store'.InPriority (address, number)))
    (hkept : ∀ number, next ≤ number → store.InRun address s number →
      ∃ txn, store'.find (address, number) = some txn)
    (hpriority : ∀ number, store'.InPriority (address, number) →
      store.InPriority (address, number)) : store'.Ripe address next := by
  intro number txn htxn
  obtain ⟨hge, ⟨hold, hannounced⟩ | ⟨hstate, hnot⟩⟩ := hstored number txn htxn
  · by_cases hin : store.InRun address s number
    · refine ⟨hge, .inr (hannounced ((h number txn hold).1 hin).2.1), fun hout => absurd ?_ hout⟩
      refine ⟨hge, fun m hm hmn => hkept m hm ⟨hle.trans hm, fun k hk hkm => ?_⟩⟩
      exact hin.2 k hk (hkm.trans hmn)
    · obtain ⟨hnot, hstate, -⟩ := (h number txn hold).2 hin
      exact ⟨hge, .inl hstate, fun _ => ⟨fun hin => hnot (hpriority number hin), hstate⟩⟩
  · exact ⟨hge, .inl hstate, fun _ => ⟨hnot, hstate⟩⟩

/-! ## The operations of the store -/

section

variable (h : store.Settled address s)

include h

theorem Settled.commit (hindexed : store.Indexed) {next} (hle : s ≤ next) :
    (store.commitTransaction address next).Settled address next := by
  have hdrops := hindexed.drops_clean address next
  have hripe : (store.cleanCommittedTransactions address next).Ripe address next := by
    apply h.ripe hle
    case hstored =>
      intro number txn htxn
      obtain ⟨hold, hD⟩ := hdrops.find_eq_some.mp htxn
      exact ⟨Nat.le_of_not_lt fun hlt => hD ⟨rfl, hlt⟩, .inl ⟨hold, hdrops.announced hD⟩⟩
    case hkept =>
      intro number hge hin
      rw [hdrops.find_kept (address, number) fun hD => not_lt.mpr hge hD.2]
      exact hin.2 number hin.1 (le_refl _)
    case hpriority => exact fun _ => hdrops.inPriority
  obtain ⟨_, hready⟩ := (hindexed.drops hdrops).processesReady address next
  exact hripe.settled hready

theorem Settled.commit_other (hindexed : store.Indexed) (hne : other ≠ address) (next : Nat) :
    (store.commitTransaction other next).Settled address s := by
  have hdrops := hindexed.drops_clean other next
  have hclean : (store.cleanCommittedTransactions other next).Settled address s :=
    h.drops_parked hdrops fun _ hD => absurd hD.1.symm hne
  obtain ⟨_, hready⟩ := (hindexed.drops hdrops).processesReady other next
  exact hclean.keeps (hready.keeps hne)

theorem Settled.inserts_other (hconsistent : store.Consistent) (hne : txn.getSender ≠ address)
    (hstate : txn.isReady = false) (hinserts : Inserts store txn current store') :
    store'.Settled address s := by
  cases hconsistent.inserted hstate hinserts with
  | stopped hdrops hD =>
    exact h.drops_parked hdrops fun _ hdropped =>
      (hD _ hdropped).imp_right fun hbelow => absurd hbelow.1.symm hne
  | accepted hdrops hD _ _ _ hready =>
    have hsettled := h.drops_parked hdrops fun number hdropped => by
      rcases hD _ hdropped with heq | hparks | hbelow
      · exact absurd (congrArg fst heq).symm hne
      · exact .inl hparks
      · exact absurd hbelow.1.symm hne
    exact (hsettled.keeps (keeps_put hne)).keeps (hready.keeps hne)

end

theorem Settled.inserts (h : store.Settled txn.getSender current) (hconsistent : store.Consistent)
    (hge : current ≤ txn.getSequenceNumber) (hstate : txn.timelineState = .notReady)
    (hinserts : Inserts store txn current store') : store'.Settled txn.getSender current := by
  cases hconsistent.inserted (by simp [isReady, hstate]) hinserts with
  | stopped hdrops hD =>
    exact h.drops_parked hdrops fun _ hdropped => (hD _ hdropped).imp_right And.right
  | @accepted store₁ _ D _ hdrops hD hbelow hnew _ hready =>
    refine (h.ripe (le_refl _) ?hstored ?hkept ?hpriority).settled hready
    case hstored =>
      intro number found hfound
      rw [find_put] at hfound
      split at hfound
      next heq =>
        obtain rfl : txn.getSequenceNumber = number := congrArg snd heq
        rw [← some.inj hfound]
        refine ⟨hge, .inr ⟨hstate, fun hin => ?_⟩⟩
        obtain ⟨key, hkey, hpointer⟩ := hin
        obtain ⟨_, hold⟩ := (hconsistent.1.drops hdrops).priority hkey
        rw [hpointer, ← heq, hnew] at hold
        cases hold
      next =>
        obtain ⟨hold, hdropped⟩ := hdrops.find_eq_some.mp hfound
        refine ⟨Nat.le_of_not_lt fun hlt => ?_, .inl ⟨hold, hdrops.announced hdropped⟩⟩
        rw [hbelow number hlt] at hfound
        cases hfound
    case hkept =>
      intro number hle hin
      rw [find_put]
      split
      · exact ⟨txn, rfl⟩
      next hne =>
        obtain ⟨found, hfound⟩ := hin.2 number hin.1 (le_refl _)
        have hdropped : ¬ D (txn.getSender, number) := by
          intro hdropped
          rcases hD _ hdropped with heq | hparks | hbelow
          · exact hne heq.symm
          · exact ((h number found hfound).1 hin).2.2 hparks
          · exact not_lt.mpr hle hbelow.2
        exact ⟨found, (hdrops.find_kept _ hdropped).trans hfound⟩
    case hpriority => exact fun _ hin => hdrops.inPriority hin

theorem Settled.gc (h : store.Settled address s) (hconsistent : store.Consistent) {now bySystemTtl}
    (hspares : ∀ number txn, store.find (address, number) = some txn →
      ¬ store.Expires now bySystemTtl (address, number) →
      (∃ m < number, store.Expires now bySystemTtl (address, m)) → txn.isReady = false) :
    (store.gc now bySystemTtl).Settled address s := by
  obtain ⟨F, hF, hdrops⟩ := hconsistent.1.drops_gc now bySystemTtl
  refine h.drops hdrops fun number hin hkept => ?_
  obtain ⟨txn, htxn⟩ := hin.2 number hin.1 (le_refl _)
  obtain ⟨-, ⟨_, hid, -⟩, -⟩ := (h number txn htxn).1 hin
  have hnone : ¬ ∃ m < number, store.Expires now bySystemTtl (address, m) := by
    intro hexpired
    have hnot := hspares number txn htxn hkept hexpired
    simp [isReady, hid] at hnot
  constructor
  · intro m _ hmn hexpires
    rcases lt_or_eq_of_le hmn with hlt | rfl
    · exact hnone ⟨m, hlt, hexpires⟩
    · exact hkept hexpires
  · intro hFn
    obtain ⟨m, hlt, hexpires⟩ := hF _ hFn
    exact hnone ⟨m, hlt, hexpires⟩

end TransactionStore

namespace Mempool

open TransactionStore
open MempoolTransaction (fromSecs)

variable {mempool : Mempool} {address : AccountAddress}

/-- For each account with a cached number, the transactions up to the first gap are in the priority
index and in the timeline, and the others are only in the parking lot. -/
def Readiness (mempool : Mempool) : Prop :=
  ∀ address s, mempool.cached address = some s →
    ∀ number txn, mempool.transactions.find (address, number) = some txn →
      (mempool.transactions.InRun address s number →
        mempool.transactions.priorityIndex.contains txn = true ∧
        mempool.transactions.InTimeline (address, number)) ∧
      (¬ mempool.transactions.InRun address s number →
        mempool.transactions.parkingLotIndex.contains (address, number) = true ∧
        mempool.transactions.priorityIndex.contains txn = false ∧
        ¬ mempool.transactions.InTimeline (address, number))

def Operation.NotReady : Operation → Prop
  | .addTxn input => input.timelineState = .notReady
  | .removeTransaction .. | .gc .. | .gcByExpirationTime .. => True

instance instDecidableNotReady : (operation : Operation) → Decidable operation.NotReady
  | .addTxn input => inferInstanceAs (Decidable (input.timelineState = .notReady))
  | .removeTransaction .. | .gc .. | .gcByExpirationTime .. => isTrue trivial

section

variable (mempool : Mempool)

def SparesReady (now : Nat) (bySystemTtl : Bool) : Prop :=
  let index := mempool.transactions.ttlIndex bySystemTtl
  ∀ key ∈ index, ∀ expired ∈ index, expired.expirationTime < now → now ≤ key.expirationTime →
    expired.address = key.address → expired.sequenceNumber < key.sequenceNumber →
    mempool.cached key.address = none ∨
      (mempool.transactions.find key.pointer).all (fun txn => !txn.isReady) = true

instance instDecidableSparesReady (now : Nat) (bySystemTtl : Bool) :
    Decidable (mempool.SparesReady now bySystemTtl) := by
  unfold SparesReady
  infer_instance

/-- The number of an account that has transactions is cached, and neither the database nor a
collection overtakes it. -/
def Regular : Operation → Prop
  | .addTxn input => (mempool.transactions.account input.txn.sender).size = 0 ∨
      (mempool.cached input.txn.sender).any (decide <| input.dbSequenceNumber ≤ ·) = true
  | .removeTransaction sender _ isRejected _ => isRejected = true ∨
      (mempool.transactions.account sender).size = 0 ∨ (mempool.cached sender).isSome = true
  | .gc _ now => mempool.SparesReady now true
  | .gcByExpirationTime blockTime => mempool.SparesReady blockTime false

instance instDecidableRegular :
    (operation : Operation) → Decidable (mempool.Regular operation)
  | .addTxn _ => inferInstanceAs (Decidable (_ ∨ _))
  | .removeTransaction .. => inferInstanceAs (Decidable (_ ∨ _ ∨ _))
  | .gc _ now => inferInstanceAs (Decidable (mempool.SparesReady now true))
  | .gcByExpirationTime blockTime =>
    inferInstanceAs (Decidable (mempool.SparesReady blockTime false))

def AllSettled : Prop :=
  mempool.transactions.Consistent ∧ ∀ address s, mempool.cached address = some s →
    mempool.transactions.Settled address s

end

theorem AllSettled.readiness (h : mempool.AllSettled) : mempool.Readiness := by
  intro address s hcached number txn htxn
  set store := mempool.transactions
  have hindexed : store.Indexed := h.1.1
  have hsettled := h.2 address s hcached number txn htxn
  have hpointer := hindexed.stored _ txn htxn
  have hof entry := hindexed.of_iff entry (hpointer ▸ htxn)
  have hcontains : store.priorityIndex.contains txn = true ↔
      store.InPriority (address, number) := by
    rw [← hpointer]
    exact BTreeSet.contains_iff.trans (exists_congr fun key =>
      and_congr_right (hof (.priority key)))
  rw [← Bool.not_eq_true, hcontains, ParkingLotIndex.contains_iff hindexed.valid]
  refine ⟨fun hin => ?_, fun hout => ?_⟩
  · obtain ⟨hpriority, ⟨id, -, hentry⟩, -⟩ := hsettled.1 hin
    exact ⟨hpriority, id, hentry⟩
  · obtain ⟨hpriority, hstate, hparks⟩ := hsettled.2 hout
    refine ⟨hparks, hpriority, ?_⟩
    rintro ⟨id, hentry⟩
    have hid := (hof (.timeline id _) hentry).mpr hpointer.symm
    rw [Entry.Of, hstate] at hid
    cases hid

/-! ## Regular runs -/

theorem cached_addTxn (input : AddTxn) (address) :
    (mempool.addTxn input).1.cached address = (mempool.sequenceNumberCache.insert
      input.txn.sender (mempool.currentSequenceNumber input) input.systemTime).get address := by
  unfold addTxn cached
  simp only
  split <;> rfl

theorem find_of_size_eq_zero {store : TransactionStore} (h : (store.account address).size = 0)
    (number : Nat) : store.find (address, number) = none := by
  simp [find, eq_empty_iff_size_eq_zero.mpr h]

section

variable (h : mempool.AllSettled)

include h

theorem AllSettled.addTxn {input : AddTxn}
    (hstate : input.timelineState = .notReady) (hregular : mempool.Regular (.addTxn input))
    {s} (hcached : (mempool.addTxn input).1.cached address = some s) :
    (mempool.addTxn input).1.transactions.Settled address s := by
  have hinserts := mempool.transactions_addTxn input
  rw [cached_addTxn] at hcached
  by_cases haddress : input.txn.sender = address
  · subst haddress
    rw [get_insert_self, some.injEq] at hcached
    have hsettled : mempool.transactions.Settled input.txn.sender s := by
      rcases hregular with hempty | hdb
      · exact settled_of_empty (find_of_size_eq_zero hempty)
      · obtain ⟨value, hvalue, hle⟩ := (any_eq_true _ _).mp hdb
        have hle := of_decide_eq_true hle
        rw [← hcached, currentSequenceNumber, hvalue]
        simp only [max_eq_left hle]
        exact h.2 _ value hvalue
    rcases hinserts with ⟨heq, -⟩ | ⟨hge, hinserts⟩
    · rwa [heq]
    · rw [hcached] at hge hinserts
      exact hsettled.inserts h.1 hge hstate hinserts
  · have hold := h.2 address s (get_insert_of_ne haddress hcached)
    rcases hinserts with ⟨heq, -⟩ | ⟨-, hinserts⟩
    · rwa [heq]
    · have hready : (mempool.txnInfo input).isReady = false := by
        simp [isReady, txnInfo, hstate]
      have hne : (mempool.txnInfo input).getSender ≠ address := haddress
      exact hold.inserts_other h.1 hne hready hinserts

theorem AllSettled.removeTransaction {sender : AccountAddress}
    {sequenceNumber isRejected systemTime} (hregular : mempool.Regular
      (.removeTransaction sender sequenceNumber isRejected systemTime)) {s}
    (hcached : (mempool.removeTransaction sender sequenceNumber isRejected systemTime).cached
      address = some s) :
    (mempool.removeTransaction sender sequenceNumber isRejected systemTime).transactions.Settled
      address s := by
  have hremoved {value}
      (hvalue : (mempool.sequenceNumberCache.remove sender).1.get address = some value) :
      sender ≠ address ∧ mempool.cached address = some value := by
    rw [get_remove] at hvalue
    split at hvalue
    · cases hvalue
    next hne => exact ⟨hne, hvalue⟩
  unfold Mempool.removeTransaction at hcached ⊢
  cases isRejected with
  | true =>
    simp only [if_true] at hcached ⊢
    split at hcached
    next hge =>
      obtain ⟨hne, hcached⟩ := hremoved hcached
      rw [if_pos hge]
      refine (h.2 address s hcached).drops (h.1.1.drops_reject sender) fun _ _ _ =>
        ⟨fun _ _ _ heq => hne heq.symm, not_false⟩
    next hlt =>
      rw [if_neg hlt]
      exact h.2 address s (hremoved hcached).2
  | false =>
    simp only [Bool.false_eq_true, if_false] at hcached ⊢
    rw [remove_snd] at hcached ⊢
    by_cases hne : sender = address
    · subst hne
      have hs := (get_insert_self _ _).symm.trans hcached
      rw [some.injEq] at hs
      rw [hs]
      rcases hregular with hfalse | hempty | hsome
      · cases hfalse
      · exact (settled_of_empty (find_of_size_eq_zero hempty)).commit h.1.1 (le_refl _)
      · obtain ⟨value, hvalue⟩ := isSome_iff_exists.mp hsome
        refine (h.2 sender value hvalue).commit h.1.1 ?_
        have hget : mempool.sequenceNumberCache.get sender = some value := hvalue
        rw [← hs, hget]
        exact le_max_left ..
    · have hcached := (hremoved (get_insert_of_ne hne hcached)).2
      exact (h.2 address s hcached).commit_other h.1.1 hne _

theorem AllSettled.gcStore {now bySystemTtl} (hspares : mempool.SparesReady now bySystemTtl) {s}
    (hcached : mempool.cached address = some s) :
    (mempool.transactions.gc now bySystemTtl).Settled address s := by
  refine (h.2 address s hcached).gc h.1 fun number txn htxn hkept hexpired => ?_
  obtain ⟨m, _, expired, hmem, htime, hpointer⟩ := hexpired
  obtain ⟨key, hkey, hkeyPointer⟩ : ∃ key ∈ mempool.transactions.ttlIndex bySystemTtl,
      key.pointer = (address, number) :=
    ⟨_, h.1.2.ttl _ _ txn htxn, (pointer_ttlKey _ txn).trans (h.1.1.stored _ txn htxn)⟩
  have hstays : now ≤ key.expirationTime := Nat.le_of_not_lt fun hgone =>
    hkept ⟨key, hkey, hgone, hkeyPointer.symm⟩
  have haddress : key.address = address := congrArg fst hkeyPointer
  have hnumber : key.sequenceNumber = number := congrArg snd hkeyPointer
  have hexpiredAddress : expired.address = address := (congrArg fst hpointer).symm
  have hexpiredNumber : expired.sequenceNumber = m := (congrArg snd hpointer).symm
  rcases hspares key hkey expired hmem htime hstays (hexpiredAddress.trans haddress.symm)
    (by omega) with hnone | hall
  · rw [haddress, hcached] at hnone
    cases hnone
  · rw [hkeyPointer, htxn] at hall
    simpa using hall

theorem AllSettled.step {operation}
    (hnotReady : operation.NotReady) (hregular : mempool.Regular operation) :
    (mempool.step operation).AllSettled := by
  have hunready : operation.Unready := by
    cases operation with
    | addTxn => exact .inl hnotReady
    | removeTransaction | gc | gcByExpirationTime => trivial
  refine ⟨consistent_step hunready h.1, fun _ s hcached => ?_⟩
  cases operation with
  | addTxn => exact h.addTxn hnotReady hregular hcached
  | removeTransaction => exact h.removeTransaction hregular hcached
  | gc => exact h.gcStore hregular (get_gc hcached)
  | gcByExpirationTime => exact h.gcStore hregular hcached

end

/-- In a regular run every account with a cached number is ready up to its first gap, and parked
from there on. -/
theorem readiness_of_regular (config : MempoolConfig) (operations : List Operation)
    (hnotReady : ∀ operation ∈ operations, operation.NotReady)
    (hregular : Along step Regular (new config) operations) :
    (run config operations).Readiness := by
  have hnew : (new config).AllSettled := by
    refine ⟨Consistent.empty _ _, fun _ s hcached => ?_⟩
    simp [new, cached, TtlCache.get] at hcached
  have hadds : Along step (fun _ operation => operation.NotReady) (new config) operations :=
    .of_forall fun _ => hnotReady
  have hrun : (run config operations).AllSettled :=
    Along.invariant (fun _ _ hsettled hoperation =>
      hsettled.step hoperation.1 hoperation.2) hnew (hadds.and hregular)
  exact hrun.readiness

/-! ## A transaction that never enters the timeline again -/

def addAt (number second systemTime : Nat) : Operation :=
  .addTxn
    { txn := { sender := 1, sequenceNumber := number }
      rankingScore := 1
      dbSequenceNumber := 0
      timelineState := .notReady
      governanceRole := .nonGovernanceRole
      systemTime := systemTime
      now := fromSecs second
      random := 0 }

def commitThenGc : List Operation :=
  [addAt 0 0 0, addAt 1 0 1, addAt 3 50 2, .removeTransaction 1 0 false 3,
    .gc (fromSecs 70) (fromSecs 70)]

theorem readiness_of_regular_commitThenGc :
    Along step Regular (new ⟨10, 5, 60⟩) commitThenGc ∧ (run ⟨10, 5, 60⟩ commitThenGc).Readiness :=
  ⟨by decide +kernel,
    readiness_of_regular ⟨10, 5, 60⟩ commitThenGc (by decide) (by decide +kernel)⟩

def gcThenRefill : List Operation :=
  [addAt 0 0 0, addAt 1 50 1, .gc (fromSecs 70) (fromSecs 70), addAt 0 70 2]

/-- Number 1 is in the run again, but not in the timeline: it was parked in the state `Ready`. -/
theorem readiness_fails_after_gc :
    (∀ operation ∈ gcThenRefill, operation.NotReady) ∧
      ¬ (run ⟨10, 5, 60⟩ gcThenRefill).Readiness := by
  refine ⟨by decide, fun hreadiness => ?_⟩
  have hstored : ∀ m ∈ [0, 1],
      ((run ⟨10, 5, 60⟩ gcThenRefill).transactions.find (1, m)).isSome = true := by
    decide +kernel
  have htimeline :
      ∀ entry ∈ (run ⟨10, 5, 60⟩ gcThenRefill).transactions.timelineIndex.timeline.toList,
      entry.2 ≠ (1, 1) := by
    decide +kernel
  have hcached : (run ⟨10, 5, 60⟩ gcThenRefill).cached 1 = some 0 := by decide +kernel
  obtain ⟨txn, htxn⟩ := isSome_iff_exists.mp (hstored 1 (by simp))
  have hrun : (run ⟨10, 5, 60⟩ gcThenRefill).transactions.InRun 1 0 1 := by
    refine ⟨zero_le _, fun m _ _ => isSome_iff_exists.mp (hstored m ?_)⟩
    simp only [List.mem_cons, List.not_mem_nil, or_false]
    omega
  obtain ⟨id, hid⟩ := ((hreadiness 1 0 hcached 1 txn htxn).1 hrun).2
  exact htimeline (id, (1, 1)) (mem_toList_iff_getElem?_eq_some.mpr hid) rfl

end Mempool

end Loki.Diem.CoreMempool
