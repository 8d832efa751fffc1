import Vpu.Machine.Run
import Vpu.Model.Core.FaxReload

/-! # Sending a record to the fax servers

A `fax_pre` thread that found a fax sends the record to one server, beginning behind the server that
it used last. `m` stays from record to record. Each turn of the loop takes over a pending table,
tries the server at `m` and goes on; the loop ends when a send succeeds or `m` comes back to `tmp_m`.
Files are read again, and other threads change the shared table, between the turns.
-/

namespace Vpu.Model.Core

/-- The locals `m` and `tmp_m` of a thread, the second one while the thread is in the loop, and the
tables that it sends by. -/
structure FaxDispatch where
  conf : Conf
  m : ℕ
  tmpM : Option ℕ

/-- `m++; if(m == fax_num) m = 0;` -/
def advance (num m : ℕ) : ℕ := if m + 1 = num then 0 else m + 1

/-- Only the thread with flag 1 connects a server again. -/
def FaxInfo.reconnect (info : FaxInfo) (first : Bool) (connected : ℤ) : FaxInfo :=
  if info.flag = 1 ∧ info.fd = -1 ∧ first = true then { info with fd := connected } else info

/-- `fax_infos[i] = info` -/
def Conf.setFaxInfo (conf : Conf) (i : ℕ) (info : FaxInfo) : Conf :=
  { conf with fax := ⟨Function.update conf.fax.infos i info, conf.fax.num⟩ }

/-- `tmp_m = m` for a record with a fax. -/
def FaxDispatch.record (d : FaxDispatch) : FaxDispatch := if d.tmpM = none then { d with tmpM := some d.m } else d

/-- A turn of the loop. `none` is an access behind the array. -/
def FaxDispatch.attempt (d : FaxDispatch) (first : Bool) (connected : ℤ) (sent : Bool) : Option FaxDispatch :=
  match d.tmpM with
  | none => some d
  | some tmpM =>
    let conf := faxReload d.conf
    let next := advance conf.fax.num d.m
    if faxNumMax ≤ d.m then none
    else
      let info := (conf.fax.infos d.m).reconnect first connected
      if info.flag = 1 ∧ 0 < info.fd ∧ sent = true then some ⟨conf.setFaxInfo d.m info, next, none⟩
      else
        let info := if info.flag = 1 ∧ 0 < info.fd then { info with fd := -1 } else info
        let conf := conf.setFaxInfo d.m info
        if next = tmpM then some ⟨conf, advance conf.fax.num next, none⟩ else some ⟨conf, next, some tmpM⟩

inductive FaxDispatchEvent where
  /-- The thread found a fax in a call. -/
  | record
  /-- The thread makes a turn; `connected` and `sent` are what `cconnect` and `send` would say. -/
  | attempt (connected : ℤ) (sent : Bool)
  /-- The configuration is read again. -/
  | reload (root : ConfNode)
  /-- Another thread takes over a pending table. -/
  | taken
  /-- Another thread connects or closes a server. -/
  | link (i : ℕ) (fd : ℤ)

def FaxDispatch.step (first : Bool) (d : FaxDispatch) : FaxDispatchEvent → Option FaxDispatch
  | .record => some d.record
  | .attempt connected sent => d.attempt first connected sent
  | .reload root => (reloadFaxIpPort root d.conf).map fun conf => { d with conf := conf }
  | .taken => some { d with conf := faxReload d.conf }
  | .link i fd => some { d with conf := d.conf.setFaxInfo i { d.conf.fax.infos i with fd := fd } }

/-- A thread with the tables that it shares; `first` says that its flag is 1. -/
def dispatchMachine (first : Bool) : EventMachine (Option FaxDispatch) FaxDispatchEvent Unit :=
  ⟨fun d e => (d.bind fun d => d.step first e, ())⟩

/-- `fax_pre` when it starts. -/
def FaxDispatch.start (conf : Conf) : FaxDispatch := ⟨conf, 0, none⟩

end Vpu.Model.Core
