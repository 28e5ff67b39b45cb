import OpenCms.Cron.Schedule
import OpenCms.Lib.Schema

/-!
# Jobs, and how they are read

The records of the job store with their schemas. A number is any finite one, and it is the
schema that asks for more, so a job that was made by the program need not be one that is
read again.

Whether a string is a URL is a matter of the platform, and a parameter here.
-/

namespace OpenCms.Cron

inductive CronSessionTarget
  | main
  | isolated
  deriving DecidableEq

inductive CronWakeMode
  | nextHeartbeat
  | now
  deriving DecidableEq

inductive CronDeliveryMode
  | none
  | announce
  | webhook
  deriving DecidableEq

structure CronDelivery where
  mode : CronDeliveryMode
  webhookUrl : Option JsString
  webhookBearerToken : Option JsString
  announceSessionID : Option JsString
  bestEffort : Option Bool
  deriving DecidableEq

inductive CronRunStatus
  | ok
  | error
  | skipped
  deriving DecidableEq

inductive CronDeliveryStatus
  | delivered
  | notDelivered
  | unknown
  | notRequested
  deriving DecidableEq

structure CronJobState where
  nextRunAtMs : Option ℚ := none
  runningAtMs : Option ℚ := none
  lastRunAtMs : Option ℚ := none
  lastRunStatus : Option CronRunStatus := none
  lastError : Option JsString := none
  lastErrorReason : Option JsString := none
  lastDurationMs : Option ℚ := none
  consecutiveErrors : Option ℚ := none
  lastFailureAlertAtMs : Option ℚ := none
  scheduleErrorCount : Option ℚ := none
  lastDeliveryStatus : Option CronDeliveryStatus := none
  lastDeliveryError : Option JsString := none
  lastModel : Option JsString := none
  lastAccountId : Option JsString := none
  deriving DecidableEq

inductive CronPayload
  | systemEvent (text : JsString)
  | agentTurn (message : JsString) (model accountId : Option JsString)
      (timeoutSeconds : Option ℚ) (lightContext : Option Bool)
  deriving DecidableEq

/-- `CronFailureAlert`: `false`, or when to alert. -/
inductive CronFailureAlert
  | off
  | alert (after cooldownMs : Option ℚ)
  deriving DecidableEq

/-- The part of a job that is not kept by the store. -/
structure CronJobSettings where
  name : JsString
  description : Option JsString := none
  enabled : Bool
  deleteAfterRun : Option Bool := none
  schedule : CronSchedule
  sessionTarget : CronSessionTarget
  parentID : Option JsString := none
  dormantSessionID : Option JsString := none
  wakeMode : CronWakeMode
  payload : CronPayload
  delivery : Option CronDelivery := none
  failureAlert : Option CronFailureAlert := none
  deriving DecidableEq

structure CronJob extends CronJobSettings where
  id : JsString
  createdAtMs : ℚ
  updatedAtMs : ℚ
  state : CronJobState
  deriving DecidableEq

/-- `CronStoreFile`, but for its version, which is always 1. -/
structure CronStoreFile where
  jobs : List CronJob
  deriving DecidableEq

structure CronJobCreate extends CronJobSettings where
  state : Option CronJobState := none
  deriving DecidableEq

/-- A part of a job's state to be written over it; what is given as nothing is taken away. -/
structure CronJobStatePatch where
  nextRunAtMs : Option (Option ℚ) := none
  runningAtMs : Option (Option ℚ) := none
  lastRunAtMs : Option (Option ℚ) := none
  lastRunStatus : Option (Option CronRunStatus) := none
  lastError : Option (Option JsString) := none
  lastErrorReason : Option (Option JsString) := none
  lastDurationMs : Option (Option ℚ) := none
  consecutiveErrors : Option (Option ℚ) := none
  lastFailureAlertAtMs : Option (Option ℚ) := none
  scheduleErrorCount : Option (Option ℚ) := none
  lastDeliveryStatus : Option (Option CronDeliveryStatus) := none
  lastDeliveryError : Option (Option JsString) := none
  lastModel : Option (Option JsString) := none
  lastAccountId : Option (Option JsString) := none
  deriving DecidableEq

structure CronJobPatch where
  name : Option JsString := none
  description : Option (Option JsString) := none
  enabled : Option Bool := none
  deleteAfterRun : Option (Option Bool) := none
  schedule : Option CronSchedule := none
  sessionTarget : Option CronSessionTarget := none
  parentID : Option (Option JsString) := none
  dormantSessionID : Option (Option JsString) := none
  wakeMode : Option CronWakeMode := none
  payload : Option CronPayload := none
  delivery : Option (Option CronDelivery) := none
  failureAlert : Option (Option CronFailureAlert) := none
  state : Option CronJobStatePatch := none
  deriving DecidableEq

def CronJobState.patch (s : CronJobState) (p : CronJobStatePatch) : CronJobState where
  nextRunAtMs := p.nextRunAtMs.getD s.nextRunAtMs
  runningAtMs := p.runningAtMs.getD s.runningAtMs
  lastRunAtMs := p.lastRunAtMs.getD s.lastRunAtMs
  lastRunStatus := p.lastRunStatus.getD s.lastRunStatus
  lastError := p.lastError.getD s.lastError
  lastErrorReason := p.lastErrorReason.getD s.lastErrorReason
  lastDurationMs := p.lastDurationMs.getD s.lastDurationMs
  consecutiveErrors := p.consecutiveErrors.getD s.consecutiveErrors
  lastFailureAlertAtMs := p.lastFailureAlertAtMs.getD s.lastFailureAlertAtMs
  scheduleErrorCount := p.scheduleErrorCount.getD s.scheduleErrorCount
  lastDeliveryStatus := p.lastDeliveryStatus.getD s.lastDeliveryStatus
  lastDeliveryError := p.lastDeliveryError.getD s.lastDeliveryError
  lastModel := p.lastModel.getD s.lastModel
  lastAccountId := p.lastAccountId.getD s.lastAccountId

def CronJobSettings.patch (s : CronJobSettings) (p : CronJobPatch) : CronJobSettings where
  name := p.name.getD s.name
  description := p.description.getD s.description
  enabled := p.enabled.getD s.enabled
  deleteAfterRun := p.deleteAfterRun.getD s.deleteAfterRun
  schedule := p.schedule.getD s.schedule
  sessionTarget := p.sessionTarget.getD s.sessionTarget
  parentID := p.parentID.getD s.parentID
  dormantSessionID := p.dormantSessionID.getD s.dormantSessionID
  wakeMode := p.wakeMode.getD s.wakeMode
  payload := p.payload.getD s.payload
  delivery := p.delivery.getD s.delivery
  failureAlert := p.failureAlert.getD s.failureAlert

/-! ### The schemas -/

/-- The keys that the schemas know, and any other. -/
inductive Key
  | version | jobs | kind | at | everyMs | anchorMs | expr | tz | staggerMs | mode | webhookUrl
  | webhookBearerToken | announceSessionID | bestEffort | nextRunAtMs | runningAtMs | lastRunAtMs
  | lastRunStatus | lastError | lastErrorReason | lastDurationMs | consecutiveErrors
  | lastFailureAlertAtMs | scheduleErrorCount | lastDeliveryStatus | lastDeliveryError
  | lastModel | lastAccountId | text | message | model | accountId | timeoutSeconds
  | lightContext | after | cooldownMs | id | name | description | enabled | deleteAfterRun
  | createdAtMs | updatedAtMs | schedule | sessionTarget | parentID | dormantSessionID | wakeMode
  | payload | delivery | failureAlert | state
  | other (name : JsString)
  deriving DecidableEq

def isInt (q : ℚ) : Bool := q.den = 1 && q.num.natAbs ≤ 2 ^ 53 - 1

def anyNumber : Schema Key JsString ℚ := .num fun _ => true

def int : Schema Key JsString ℚ := .num isInt

def positiveInt : Schema Key JsString ℚ := .num fun q => isInt q && 0 < q

def nonnegativeInt : Schema Key JsString ℚ := .num fun q => isInt q && 0 ≤ q

def kind {α : Type} (name : JsString) (f : Fields Key JsString α) : Fields Key JsString α :=
  ((Fields.required .kind (.only name)).pair f).map Prod.snd (fun a => ((), a)) fun _ => rfl

def CronScheduleSchema : Schema Key JsString CronSchedule :=
  .record
    ((kind (js "at") (.required .at .str)).choice
      ((kind (js "every")
          ((Fields.required .everyMs positiveInt).pair (.optional .anchorMs int))).choice
        (kind (js "cron")
          ((Fields.required .expr .str).pair
            ((Fields.optional .tz .str).pair (.optional .staggerMs nonnegativeInt))))
        fun _ => rfl)
      fun b => by cases b <;> rfl)
    (fun
      | .inl at_ => .at at_
      | .inr (.inl (everyMs, anchorMs)) => .every everyMs anchorMs
      | .inr (.inr (expr, tz, staggerMs)) => .cron expr tz staggerMs)
    (fun
      | .at at_ => .inl at_
      | .every everyMs anchorMs => .inr (.inl (everyMs, anchorMs))
      | .cron expr tz staggerMs => .inr (.inr (expr, tz, staggerMs)))
    (fun a => by rcases a with a | a | a <;> rfl)
    rfl

def CronSessionTargetSchema : Schema Key JsString CronSessionTarget :=
  .enum [.main, .isolated] fun
    | .main => js "main"
    | .isolated => js "isolated"

def CronWakeModeSchema : Schema Key JsString CronWakeMode :=
  .enum [.nextHeartbeat, .now] fun
    | .nextHeartbeat => js "next-heartbeat"
    | .now => js "now"

def CronDeliveryModeSchema : Schema Key JsString CronDeliveryMode :=
  .enum [.none, .announce, .webhook] fun
    | .none => js "none"
    | .announce => js "announce"
    | .webhook => js "webhook"

def CronRunStatusSchema : Schema Key JsString CronRunStatus :=
  .enum [.ok, .error, .skipped] fun
    | .ok => js "ok"
    | .error => js "error"
    | .skipped => js "skipped"

def CronDeliveryStatusSchema : Schema Key JsString CronDeliveryStatus :=
  .enum [.delivered, .notDelivered, .unknown, .notRequested] fun
    | .delivered => js "delivered"
    | .notDelivered => js "not-delivered"
    | .unknown => js "unknown"
    | .notRequested => js "not-requested"

def CronDeliverySchema (isUrl : JsString → Bool) : Schema Key JsString CronDelivery :=
  .record
    ((Fields.required .mode CronDeliveryModeSchema).pair
      ((Fields.optional .webhookUrl (.strWhere isUrl)).pair
        ((Fields.optional .webhookBearerToken .str).pair
          ((Fields.optional .announceSessionID .str).pair
            (.optional .bestEffort .bool)))))
    (fun (mode, webhookUrl, webhookBearerToken, announceSessionID, bestEffort) =>
      ⟨mode, webhookUrl, webhookBearerToken, announceSessionID, bestEffort⟩)
    (fun d => (d.mode, d.webhookUrl, d.webhookBearerToken, d.announceSessionID, d.bestEffort))
    (fun (_, _, _, _, _) => rfl)
    rfl

def CronJobStateSchema : Schema Key JsString CronJobState :=
  .record
    ((Fields.optional .nextRunAtMs anyNumber).pair
    ((Fields.optional .runningAtMs anyNumber).pair
    ((Fields.optional .lastRunAtMs anyNumber).pair
    ((Fields.optional .lastRunStatus CronRunStatusSchema).pair
    ((Fields.optional .lastError .str).pair
    ((Fields.optional .lastErrorReason .str).pair
    ((Fields.optional .lastDurationMs anyNumber).pair
    ((Fields.optional .consecutiveErrors nonnegativeInt).pair
    ((Fields.optional .lastFailureAlertAtMs anyNumber).pair
    ((Fields.optional .scheduleErrorCount nonnegativeInt).pair
    ((Fields.optional .lastDeliveryStatus CronDeliveryStatusSchema).pair
    ((Fields.optional .lastDeliveryError .str).pair
    ((Fields.optional .lastModel .str).pair
    (.optional .lastAccountId .str))))))))))))))
    (fun (nextRunAtMs, runningAtMs, lastRunAtMs, lastRunStatus, lastError, lastErrorReason,
        lastDurationMs, consecutiveErrors, lastFailureAlertAtMs, scheduleErrorCount,
        lastDeliveryStatus, lastDeliveryError, lastModel, lastAccountId) =>
      ⟨nextRunAtMs, runningAtMs, lastRunAtMs, lastRunStatus, lastError, lastErrorReason,
        lastDurationMs, consecutiveErrors, lastFailureAlertAtMs, scheduleErrorCount,
        lastDeliveryStatus, lastDeliveryError, lastModel, lastAccountId⟩)
    (fun s => (s.nextRunAtMs, s.runningAtMs, s.lastRunAtMs, s.lastRunStatus, s.lastError,
      s.lastErrorReason, s.lastDurationMs, s.consecutiveErrors, s.lastFailureAlertAtMs,
      s.scheduleErrorCount, s.lastDeliveryStatus, s.lastDeliveryError, s.lastModel,
      s.lastAccountId))
    (fun (_, _, _, _, _, _, _, _, _, _, _, _, _, _) => rfl)
    rfl

def CronPayloadSchema : Schema Key JsString CronPayload :=
  .record
    ((kind (js "systemEvent") (.required .text .str)).choice
      (kind (js "agentTurn")
        ((Fields.required .message .str).pair
          ((Fields.optional .model .str).pair
            ((Fields.optional .accountId .str).pair
              ((Fields.optional .timeoutSeconds positiveInt).pair
                (.optional .lightContext .bool))))))
      fun _ => rfl)
    (fun
      | .inl text => .systemEvent text
      | .inr (message, model, accountId, timeoutSeconds, lightContext) =>
        .agentTurn message model accountId timeoutSeconds lightContext)
    (fun
      | .systemEvent text => .inl text
      | .agentTurn message model accountId timeoutSeconds lightContext =>
        .inr (message, model, accountId, timeoutSeconds, lightContext))
    (fun a => by rcases a with a | a <;> rfl)
    rfl

def CronFailureAlertSchema : Schema Key JsString CronFailureAlert :=
  ((Schema.onlyBool false).union
    (Schema.object
      ((Fields.optional .after positiveInt).pair (.optional .cooldownMs nonnegativeInt)) rfl)
    fun _ => rfl).map
    (fun
      | .inl _ => .off
      | .inr (after, cooldownMs) => .alert after cooldownMs)
    (fun
      | .off => .inl ()
      | .alert after cooldownMs => .inr (after, cooldownMs))
    (fun a => by rcases a with a | a <;> rfl)

def CronJobSchema (isUrl : JsString → Bool) : Schema Key JsString CronJob :=
  .record
    ((Fields.required .id .str).pair
    ((Fields.required .name .str).pair
    ((Fields.optional .description .str).pair
    ((Fields.required .enabled .bool).pair
    ((Fields.optional .deleteAfterRun .bool).pair
    ((Fields.required .createdAtMs anyNumber).pair
    ((Fields.required .updatedAtMs anyNumber).pair
    ((Fields.required .schedule CronScheduleSchema).pair
    ((Fields.required .sessionTarget CronSessionTargetSchema).pair
    ((Fields.optional .parentID .str).pair
    ((Fields.optional .dormantSessionID .str).pair
    ((Fields.required .wakeMode CronWakeModeSchema).pair
    ((Fields.required .payload CronPayloadSchema).pair
    ((Fields.optional .delivery (CronDeliverySchema isUrl)).pair
    ((Fields.optional .failureAlert CronFailureAlertSchema).pair
    (.required .state CronJobStateSchema))))))))))))))))
    (fun (id, name, description, enabled, deleteAfterRun, createdAtMs, updatedAtMs, schedule,
        sessionTarget, parentID, dormantSessionID, wakeMode, payload, delivery, failureAlert,
        state) =>
      { id, name, description, enabled, deleteAfterRun, createdAtMs, updatedAtMs, schedule,
        sessionTarget, parentID, dormantSessionID, wakeMode, payload, delivery, failureAlert,
        state })
    (fun j => (j.id, j.name, j.description, j.enabled, j.deleteAfterRun, j.createdAtMs,
      j.updatedAtMs, j.schedule, j.sessionTarget, j.parentID, j.dormantSessionID, j.wakeMode,
      j.payload, j.delivery, j.failureAlert, j.state))
    (fun (_, _, _, _, _, _, _, _, _, _, _, _, _, _, _, _) => rfl)
    rfl

def CronStoreFileSchema (isUrl : JsString → Bool) : Schema Key JsString CronStoreFile :=
  .record
    ((Fields.required .version (.onlyNum 1)).pair
      (.required .jobs (.array (CronJobSchema isUrl))))
    (fun x => ⟨x.2⟩) (fun f => ((), f.jobs)) (fun _ => rfl) rfl

end OpenCms.Cron
