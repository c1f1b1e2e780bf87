import OfpProxy.Reader.Lemmas
import OfpProxy.Schedule.Transparency
import OfpProxy.Scheduler.Credit
import OfpProxy.Scheduler.Stream
import OfpProxy.Priority.Total
import OfpProxy.Schedule.Throttle
import OfpProxy.Scheduler.Fifo
import OfpProxy.Schedule.Outcome
import OfpProxy.Scheduler.Rate
import OfpProxy.Scheduler.Guard
import OfpProxy.Scheduler.Order
import OfpProxy.Schedule.Classification
import OfpProxy.Schedule.Arithmetic
import OfpProxy.Schedule.Assignment
import OfpProxy.Schedule.Scratch
import OfpProxy.Rewrite.Lemmas.Tagged
import OfpProxy.Queue.Maximal
import OfpProxy.Queue.Cleaning
import OfpProxy.Scheduler.Response
import OfpProxy.Scheduler.ClientCredit
import OfpProxy.Scheduler.Requests
import OfpProxy.Scheduler.Position
import OfpProxy.Tunnel.Features
import OfpProxy.Scheduler.Drain
import OfpProxy.Proxy.Chain
import OfpProxy.Proxy.Answers
import OfpProxy.Proxy.Load
import OfpProxy.Proxy.Refinement
import OfpProxy.Proxy.Response
