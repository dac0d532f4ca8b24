import OpcHub.Historian.Subscribe
import OpcHub.Historian.Accounts
import OpcHub.Historian.Mapped
import OpcHub.Historian.Registry
import OpcHub.Historian.Rebuilt
import OpcHub.Access.Shown
import OpcHub.Nodes.Followed
import OpcHub.Gateway.Subscribing
import OpcHub.Gateway.Edited
import OpcHub.Gateway.Modifies
import OpcHub.Gateway.Acked
import OpcHub.Gateway.Retired
import OpcHub.Gateway.Newest
import OpcHub.Gateway.ConnectionManager
import OpcHub.Sockets.Client
import OpcHub.Sockets.Sessions
import OpcHub.Sockets.Answered
import OpcHub.Sockets.Replay
import OpcHub.Log.Bound
import OpcHub.Log.Page
import OpcHub.Historian.Zone
import OpcHub.Historian.Speaks
import OpcHub.OpcServer.Grace
import OpcHub.Records.Flushed
import OpcHub.Records.Opened
import OpcHub.Historian.Intervals
import OpcHub.Historian.Paging
import OpcHub.Historian.Interpolate
import OpcHub.Historian.Lost
import OpcHub.Proto.DateTime
import OpcHub.Proto.Decoded
import OpcHub.Ql.Glob
import OpcHub.Access.Current
import OpcHub.Sockets.Instances
import OpcHub.Fwk.CoMutex
import OpcHub.Historian.Clock
import OpcHub.Fwk.AllAwait
